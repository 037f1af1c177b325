/-
  ReportStore.Proofs.Saving.CounterRows
  ─────────────────────────────────────
  **THE ROWS OF A COUNTER REPORT, THERE AND BACK.**

  A counter report that can be saved is a tree three levels deep: a leaf is
  the events of a cpu, below its group, its socket and itself.  Each leaf is
  a row, and the row is read as the leaf alone below the same keys, beside
  the fields that tell the report:

      row of (socket, cpu, events)  ──▶  head, groups: group: socket: cpu: events
-/
import ReportStore.Proofs.Saving.InTurn
import ReportStore.Proofs.Saving.ReadBack
import ReportStore.Proofs.Union

namespace ReportStore

open Codec.Counters

/-! ## §1. From the report to its rows. -/

/-- The fields that tell a report, and that every row of it carries. -/
def headFields : List String := ["timestamp", "sensor", "target"]

/-- The events of a cpu can be columns. -/
def AreEvents (events : Record) : Prop :=
  ∀ p ∈ events, p.2.isScalar = true ∧ Columns.isCommon p.1 = false

/-- The row of a leaf below a socket and a cpu. -/
def leafRow (base : Record) (leaf : List String × Record) : Record :=
  leaf.2.foldl (fun row p => Dict.insert row p.1 p.2)
    (Dict.insert (Dict.insert base "socket" (.text (leaf.1.getD 0 ""))) "cpu"
      (.text (leaf.1.getD 1 "")))

variable {r row base : Record} {group : String}

theorem level_ok {name : String} {v : Value} {m : Record} (h : level name v = .ok m) :
    v = .map m := by
  unfold level at h
  cases v with
  | map m' =>
    injection h with h
    rw [h]
  | int n => cases h
  | float x => cases h
  | text t => cases h

/-- The fields that a row starts with. -/
theorem base_ok : ∀ {fields : List String} {out row : Record},
    Codec.Counters.base r fields out = .ok row →
      (Dict.Sorted out → Dict.Sorted row) ∧
      (∀ f ∈ fields, ∃ v, Dict.get? r f = some v ∧ v.isScalar = true) ∧
      ∀ k, Dict.get? row k = if k ∈ fields then Dict.get? r k else Dict.get? out k := by
  intro fields
  induction fields with
  | nil =>
    intro out row h
    injection h with h
    subst h
    exact ⟨id, by simp, by simp⟩
  | cons f rest ih =>
    intro out row h
    rw [Codec.Counters.base] at h
    cases hv : (Dict.get? r f).filter Value.isScalar with
    | none => simp only [hv, reduceCtorEq] at h
    | some v =>
      simp only [hv] at h
      obtain ⟨hget, hscalar⟩ := Option.filter_eq_some_iff.1 hv
      obtain ⟨hsorted, hfields, hrow⟩ := ih h
      refine ⟨fun hout => hsorted (Dict.sorted_insert hout f v), ?_, ?_⟩
      · exact List.forall_mem_cons.2 ⟨⟨v, hget, hscalar⟩, hfields⟩
      · intro k
        rw [hrow, Dict.get?_insert]
        by_cases hk : k = f
        · subst hk
          simp [hget]
        · simp [hk]

/-- The events are added to the row of their cpu. -/
theorem addEvents_ok : ∀ {events row row' : Record}, addEvents group events row = .ok row' →
    AreEvents events ∧ row' = events.foldl (fun row p => Dict.insert row p.1 p.2) row := by
  intro events
  induction events with
  | nil =>
    intro row row' h
    injection h with h
    exact ⟨by simp [AreEvents], h.symm⟩
  | cons p rest ih =>
    intro row row' h
    obtain ⟨event, v⟩ := p
    rw [addEvents] at h
    split at h
    · cases h
    · next hcheck =>
      obtain ⟨hrest, hrow⟩ := ih h
      refine ⟨?_, hrow⟩
      have hevent : v.isScalar = true ∧ Columns.isCommon event = false := by simpa using hcheck
      exact List.forall_mem_cons.2 ⟨hevent, hrest⟩

/-- The rows of the cpus of a socket are those of its leaves. -/
theorem cpuRows_ok : ∀ {cpus : Record} {rows : List Record}, cpuRows base group cpus = .ok rows →
    Record.Nested 1 cpus ∧ (∀ leaf ∈ Record.leaves 1 cpus, AreEvents leaf.2) ∧
      rows = (Record.leaves 1 cpus).map fun leaf =>
        leaf.2.foldl (fun row p => Dict.insert row p.1 p.2)
          (Dict.insert base "cpu" (.text (leaf.1.getD 0 ""))) := by
  intro cpus
  induction cpus with
  | nil =>
    intro rows h
    injection h with h
    exact ⟨by simp [Record.Nested], by simp [Record.leaves], h.symm⟩
  | cons p rest ih =>
    intro rows h
    obtain ⟨cpu, v⟩ := p
    rw [cpuRows] at h
    cases hlevel : level ("cpu '" ++ cpu ++ "'") v with
    | error e => simp only [hlevel, reduceCtorEq] at h
    | ok events =>
      obtain rfl := level_ok hlevel
      simp only [hlevel] at h
      cases hadd : addEvents group events (Dict.insert base "cpu" (.text cpu)) with
      | error e => simp only [hadd, reduceCtorEq] at h
      | ok first =>
        simp only [hadd] at h
        obtain ⟨later, hlater, rfl⟩ := map_ok_iff.1 h
        obtain ⟨hevents, rfl⟩ := addEvents_ok hadd
        obtain ⟨hnested, hrest, rfl⟩ := ih hlater
        have hleaves : Record.leaves 1 ((cpu, Value.map events) :: rest) =
            ([cpu], events) :: Record.leaves 1 rest := rfl
        rw [hleaves]
        exact ⟨List.forall_mem_cons.2 ⟨⟨events, rfl, trivial⟩, hnested⟩,
          List.forall_mem_cons.2 ⟨hevents, hrest⟩, rfl⟩

/-- **The rows of a group are those of its leaves.** -/
theorem socketRows_ok : ∀ {sockets : Record} {rows : List Record},
    socketRows base group sockets = .ok rows →
      Record.Nested 2 sockets ∧ (∀ leaf ∈ Record.leaves 2 sockets, AreEvents leaf.2) ∧
        rows = (Record.leaves 2 sockets).map (leafRow base) := by
  intro sockets
  induction sockets with
  | nil =>
    intro rows h
    injection h with h
    exact ⟨by simp [Record.Nested], by simp [Record.leaves], h.symm⟩
  | cons p rest ih =>
    intro rows h
    obtain ⟨socket, v⟩ := p
    rw [socketRows] at h
    cases hlevel : level ("socket '" ++ socket ++ "'") v with
    | error e => simp only [hlevel, reduceCtorEq] at h
    | ok cpus =>
      obtain rfl := level_ok hlevel
      simp only [hlevel] at h
      cases hcpus : cpuRows (Dict.insert base "socket" (.text socket)) group cpus with
      | error e => simp only [hcpus, reduceCtorEq] at h
      | ok first =>
        simp only [hcpus] at h
        obtain ⟨later, hlater, rfl⟩ := map_ok_iff.1 h
        obtain ⟨hcpu, hfirst, rfl⟩ := cpuRows_ok hcpus
        obtain ⟨hnested, hrest, rfl⟩ := ih hlater
        have hleaves : Record.leaves 2 ((socket, Value.map cpus) :: rest) =
            (Record.leaves 1 cpus).map (fun leaf => (socket :: leaf.1, leaf.2)) ++
              Record.leaves 2 rest := rfl
        rw [hleaves, List.map_append, List.map_map]
        refine ⟨List.forall_mem_cons.2 ⟨⟨cpus, rfl, hcpu⟩, hnested⟩, ?_, rfl⟩
        intro leaf hleaf
        rcases List.mem_append.1 hleaf with hleaf | hleaf
        · obtain ⟨below, hbelow, rfl⟩ := List.mem_map.1 hleaf
          exact hfirst below hbelow
        · exact hrest leaf hleaf

/-- The leaves of a group below its sockets and cpus. -/
def groupLeaves (v : Value) : List (List String × Record) :=
  v.map?.elim [] (Record.leaves 2)

/-- The rows of all groups. -/
theorem groupRows_ok : ∀ {groups : Record} {out : GroupRows}, groupRows base groups = .ok out →
    Record.Nested 3 groups ∧ (∀ p ∈ groups, ∀ leaf ∈ groupLeaves p.2, AreEvents leaf.2) ∧
      out = Dict.mapValues (fun v => (groupLeaves v).map (leafRow base)) groups := by
  intro groups
  induction groups with
  | nil =>
    intro out h
    injection h with h
    exact ⟨by simp [Record.Nested], by simp, h.symm⟩
  | cons p rest ih =>
    intro out h
    obtain ⟨group, v⟩ := p
    rw [groupRows] at h
    cases hlevel : level ("group '" ++ group ++ "'") v with
    | error e => simp only [hlevel, reduceCtorEq] at h
    | ok sockets =>
      obtain rfl := level_ok hlevel
      simp only [hlevel] at h
      cases hrows : socketRows base group sockets with
      | error e => simp only [hrows, reduceCtorEq] at h
      | ok rows =>
        simp only [hrows] at h
        obtain ⟨later, hlater, rfl⟩ := map_ok_iff.1 h
        obtain ⟨hsockets, hevents, rfl⟩ := socketRows_ok hrows
        obtain ⟨hnested, hrest, rfl⟩ := ih hlater
        exact ⟨List.forall_mem_cons.2 ⟨⟨sockets, rfl, hsockets⟩, hnested⟩,
          List.forall_mem_cons.2 ⟨hevents, hrest⟩, rfl⟩

/-- **A counter report that can be split**: the fields that every row starts
with, the groups, and the rows of each. -/
structure Splits (r base groups : Record) (out : GroupRows) : Prop where
  sorted : Dict.Sorted base
  scalars : ∀ f ∈ headFields, ∃ v, Dict.get? r f = some v ∧ v.isScalar = true
  carries : ∀ k, Dict.get? base k = if k ∈ headFields then Dict.get? r k else none
  holds : Dict.get? r groupsField = some (.map groups)
  nested : Record.Nested 3 groups
  events : ∀ p ∈ groups, ∀ leaf ∈ groupLeaves p.2, AreEvents leaf.2
  rows : out = Dict.mapValues (fun v => (groupLeaves v).map (leafRow base)) groups

theorem exists_splits {out : GroupRows} (h : toGroups r = .ok out) :
    ∃ base groups, Splits r base groups out := by
  unfold toGroups at h
  cases hbase : Codec.Counters.base r ["timestamp", "sensor", "target"] [] with
  | error e => simp only [hbase, reduceCtorEq] at h
  | ok row =>
    simp only [hbase] at h
    cases hget : Dict.get? r groupsField with
    | none => simp only [hget, reduceCtorEq] at h
    | some v =>
      simp only [hget] at h
      cases hlevel : level "groups" v with
      | error e => simp only [hlevel, reduceCtorEq] at h
      | ok groups =>
        obtain rfl := level_ok hlevel
        simp only [hlevel] at h
        obtain ⟨hsorted, hfields, hrow⟩ := base_ok hbase
        obtain ⟨hnested, hevents, hrows⟩ := groupRows_ok h
        exact ⟨row, groups, hsorted Dict.sorted_nil, hfields, hrow, hget, hnested, hevents, hrows⟩

/-! ## §2. Reports that can be split. -/

/-- Scalars can be in every row. -/
theorem exists_base : ∀ {fields : List String} (out : Record),
    (∀ f ∈ fields, ∃ v, Dict.get? r f = some v ∧ v.isScalar = true) →
      ∃ row, Codec.Counters.base r fields out = .ok row := by
  intro fields
  induction fields with
  | nil => exact fun out _ => ⟨out, rfl⟩
  | cons f rest ih =>
    intro out h
    obtain ⟨⟨v, hget, hscalar⟩, hrest⟩ := List.forall_mem_cons.1 h
    rw [Codec.Counters.base, hget, Option.filter_some, if_pos hscalar]
    exact ih _ hrest

theorem exists_addEvents (group : String) : ∀ {events : Record} (row : Record),
    AreEvents events → ∃ row', addEvents group events row = .ok row' := by
  intro events
  induction events with
  | nil => exact fun row _ => ⟨row, rfl⟩
  | cons p rest ih =>
    intro row h
    obtain ⟨event, v⟩ := p
    obtain ⟨⟨hscalar, hown⟩, hrest⟩ := List.forall_mem_cons.1 h
    rw [addEvents, if_neg (by simp [hscalar, hown])]
    exact ih _ hrest

theorem exists_cpuRows (base : Record) (group : String) : ∀ {cpus : Record},
    Record.Nested 1 cpus → (∀ leaf ∈ Record.leaves 1 cpus, AreEvents leaf.2) →
      ∃ rows, cpuRows base group cpus = .ok rows := by
  intro cpus
  induction cpus with
  | nil => exact fun _ _ => ⟨[], rfl⟩
  | cons p rest ih =>
    intro hnested hleaves
    obtain ⟨cpu, v⟩ := p
    obtain ⟨⟨events, hv, -⟩, hrest⟩ := List.forall_mem_cons.1 hnested
    obtain rfl : v = .map events := hv
    have hcons : Record.leaves 1 ((cpu, Value.map events) :: rest) =
        ([cpu], events) :: Record.leaves 1 rest := rfl
    rw [hcons] at hleaves
    obtain ⟨hevents, hleaves⟩ := List.forall_mem_cons.1 hleaves
    obtain ⟨first, hfirst⟩ :=
      exists_addEvents group (Dict.insert base "cpu" (.text cpu)) hevents
    obtain ⟨later, hlater⟩ := ih hrest hleaves
    exact ⟨first :: later, by simp only [cpuRows, level, Value.map?, hfirst, hlater, Except.map]⟩

theorem exists_socketRows (base : Record) (group : String) : ∀ {sockets : Record},
    Record.Nested 2 sockets → (∀ leaf ∈ Record.leaves 2 sockets, AreEvents leaf.2) →
      ∃ rows, socketRows base group sockets = .ok rows := by
  intro sockets
  induction sockets with
  | nil => exact fun _ _ => ⟨[], rfl⟩
  | cons p rest ih =>
    intro hnested hleaves
    obtain ⟨socket, v⟩ := p
    obtain ⟨⟨cpus, hv, hcpus⟩, hrest⟩ := List.forall_mem_cons.1 hnested
    obtain rfl : v = .map cpus := hv
    have hcons : Record.leaves 2 ((socket, Value.map cpus) :: rest) =
        (Record.leaves 1 cpus).map (fun leaf => (socket :: leaf.1, leaf.2)) ++
          Record.leaves 2 rest := rfl
    rw [hcons] at hleaves
    obtain ⟨hhere, hleaves⟩ := List.forall_mem_append.1 hleaves
    obtain ⟨first, hfirst⟩ := exists_cpuRows (Dict.insert base "socket" (.text socket)) group hcpus
      fun leaf hleaf => hhere (socket :: leaf.1, leaf.2) (List.mem_map.2 ⟨leaf, hleaf, rfl⟩)
    obtain ⟨later, hlater⟩ := ih hrest hleaves
    exact ⟨first ++ later,
      by simp only [socketRows, level, Value.map?, hfirst, hlater, Except.map]⟩

theorem exists_groupRows (base : Record) : ∀ {groups : Record}, Record.Nested 3 groups →
    (∀ p ∈ groups, ∀ leaf ∈ groupLeaves p.2, AreEvents leaf.2) →
      ∃ out, groupRows base groups = .ok out := by
  intro groups
  induction groups with
  | nil => exact fun _ _ => ⟨[], rfl⟩
  | cons p rest ih =>
    intro hnested hleaves
    obtain ⟨group, v⟩ := p
    obtain ⟨⟨sockets, hv, hsockets⟩, hrest⟩ := List.forall_mem_cons.1 hnested
    obtain rfl : v = .map sockets := hv
    obtain ⟨hhere, hleaves⟩ := List.forall_mem_cons.1 hleaves
    obtain ⟨first, hfirst⟩ := exists_socketRows base group hsockets hhere
    obtain ⟨later, hlater⟩ := ih hrest hleaves
    exact ⟨(group, first) :: later,
      by simp only [groupRows, level, Value.map?, hfirst, hlater, Except.map]⟩

/-- **What a report has to be to be split**: scalars tell it, and below its
groups there is a tree of events. -/
theorem exists_toGroups {groups : Record}
    (hhead : ∀ f ∈ headFields, ∃ v, Dict.get? r f = some v ∧ v.isScalar = true)
    (hget : Dict.get? r groupsField = some (.map groups)) (hnested : Record.Nested 3 groups)
    (hevents : ∀ p ∈ groups, ∀ leaf ∈ groupLeaves p.2, AreEvents leaf.2) :
    ∃ out, toGroups r = .ok out := by
  obtain ⟨row, hrow⟩ := exists_base [] hhead
  obtain ⟨out, hout⟩ := exists_groupRows row hnested hevents
  unfold headFields at hrow
  refine ⟨out, ?_⟩
  unfold toGroups
  simp only [hrow, hget, level, Value.map?, hout]

/-! ## §3. A row, column by column. -/

namespace Splits

variable {groups : Record} {out : GroupRows}

/-- What a row has in its columns. -/
theorem get?_leafRow (h : Splits r base groups out) {leaf : List String × Record}
    (hsorted : Dict.Sorted leaf.2) (k : String) :
    Dict.get? (leafRow base leaf) k = (Dict.get? leaf.2 k).or
      (if k = "cpu" then some (.text (leaf.1.getD 1 ""))
      else if k = "socket" then some (.text (leaf.1.getD 0 ""))
      else if k ∈ headFields then Dict.get? r k else none) := by
  unfold leafRow
  rw [Dict.get?_foldl_insert_of_sorted hsorted, Dict.get?_insert, Dict.get?_insert, h.carries]

/-- The common columns of a row: no event is one. -/
theorem get?_leafRow_common (h : Splits r base groups out) {leaf : List String × Record}
    (hsorted : Dict.Sorted leaf.2) (hevents : AreEvents leaf.2) {k : String}
    (hk : Columns.isCommon k = true) :
    Dict.get? (leafRow base leaf) k =
      if k = "cpu" then some (.text (leaf.1.getD 1 ""))
      else if k = "socket" then some (.text (leaf.1.getD 0 ""))
      else if k ∈ headFields then Dict.get? r k else none := by
  have hnone : Dict.get? leaf.2 k = none := by
    cases hget : Dict.get? leaf.2 k with
    | none => rfl
    | some v =>
      have hnot := (hevents _ ((Dict.mem_iff_get? hsorted).2 hget)).2
      rw [hk] at hnot
      cases hnot
  rw [h.get?_leafRow hsorted, hnone, Option.none_or]

/-- The own columns of a row are the events. -/
theorem get?_leafRow_own (h : Splits r base groups out) {leaf : List String × Record}
    (hsorted : Dict.Sorted leaf.2) {k : String} (hk : Columns.isCommon k = false) :
    Dict.get? (leafRow base leaf) k = Dict.get? leaf.2 k := by
  have hne : ∀ c, Columns.isCommon c = true → k ≠ c := by
    rintro c hc rfl
    rw [hk] at hc
    cases hc
  have hhead : k ∉ headFields := by
    simp only [headFields, List.mem_cons, List.not_mem_nil, or_false, not_or]
    exact ⟨hne _ (by decide), hne _ (by decide), hne _ (by decide)⟩
  rw [h.get?_leafRow hsorted, if_neg (hne _ (by decide)), if_neg (hne _ (by decide)),
    if_neg hhead, Option.or_none]

/-- The fields that tell the report have the cells of the report. -/
theorem cellOf_leafRow (h : Splits r base groups out) {leaf : List String × Record}
    (hsorted : Dict.Sorted leaf.2) (hevents : AreEvents leaf.2) {f : String}
    (hf : f ∈ headFields) : Record.cellOf (leafRow base leaf) f = Record.cellOf r f := by
  have hcommon : Columns.isCommon f = true ∧ f ≠ "cpu" ∧ f ≠ "socket" := by
    simp only [headFields, List.mem_cons, List.not_mem_nil, or_false] at hf
    rcases hf with rfl | rfl | rfl <;> decide
  unfold Record.cellOf
  rw [h.get?_leafRow_common hsorted hevents hcommon.1, if_neg hcommon.2.1, if_neg hcommon.2.2,
    if_pos hf]

theorem time_leafRow (h : Splits r base groups out) {leaf : List String × Record}
    (hsorted : Dict.Sorted leaf.2) (hevents : AreEvents leaf.2) :
    Record.time (leafRow base leaf) = Record.time r := by
  unfold Record.time Record.timed
  rw [h.cellOf_leafRow hsorted hevents List.mem_cons_self]

end Splits

/-! ## §4. From a row to its part of the report. -/

/-- The fields that tell a report, as they come back. -/
def Record.headForm (r : Record) : Record :=
  Dict.ofPairs (headFields.map fun f => (f, readBack r f))

theorem Record.get?_headForm (r : Record) (f : String) :
    Dict.get? (headForm r) f = if f ∈ headFields then some (readBack r f) else none :=
  Dict.get?_ofPairs_map (readBack r) headFields f

theorem Record.sorted_headForm (r : Record) : Dict.Sorted (headForm r) := Dict.sorted_ofPairs _

theorem Record.isScalar_headForm (r : Record) (f : String) (v : Value)
    (hget : Dict.get? (headForm r) f = some v) : v.isScalar = true := by
  rw [get?_headForm] at hget
  split at hget
  · injection hget with hget
    exact hget ▸ isScalar_readBack r f
  · cases hget

/-- The events of a cpu, as they come back. -/
def rereadEvents (events : Record) : Record := Dict.mapValues Value.reread events

/-- The part of a report that the row of a leaf comes back as. -/
def Record.leafForm (r : Record) (leaf : List String × Record) : Record :=
  Dict.insert (headForm r) groupsField (.map (nest leaf.1 (rereadEvents leaf.2)))

namespace Splits

variable {groups : Record} {out : GroupRows} {leaf : List String × Record}

/-- The fields that tell the report come back from each of its rows. -/
theorem readBack_leafRow (h : Splits r base groups out) (hsorted : Dict.Sorted leaf.2)
    (hevents : AreEvents leaf.2) {f : String} (hf : f ∈ headFields) :
    Record.readBack (leafRow base leaf) f = Record.readBack r f := by
  unfold Record.readBack
  rw [h.time_leafRow hsorted hevents, h.cellOf_leafRow hsorted hevents hf]

/-- The own fields of a row are the events, each as its cell is read. -/
theorem ownFields_leafRow (h : Splits r base groups out) (hsorted : Dict.Sorted leaf.2)
    (hevents : AreEvents leaf.2) :
    Codec.ownFields (Record.laid (leafRow base leaf)) = rereadEvents leaf.2 := by
  have hown := Columns.own_pairwise (Dict.keys (leafRow base leaf))
  rw [Codec.ownFields_laid]
  refine Dict.eq_of_get? (List.pairwise_map.2 hown) (Dict.sorted_mapValues _ hsorted) ?_
  intro c
  rw [Dict.get?_map_mk, rereadEvents, Dict.get?_mapValues]
  by_cases hc : c ∈ Columns.own (Dict.keys (leafRow base leaf))
  · obtain ⟨hkey, hnot⟩ := Columns.mem_own.1 hc
    obtain ⟨v, hget⟩ := Dict.mem_keys_iff.1 hkey
    rw [if_pos hc, Record.readBack_of_get? hget hnot, ← h.get?_leafRow_own hsorted hnot, hget,
      Option.map_some]
  · rw [if_neg hc]
    cases hget : Dict.get? leaf.2 c with
    | none => rfl
    | some v =>
      -- An event is an own column of the row.
      have hnot := (hevents _ ((Dict.mem_iff_get? hsorted).2 hget)).2
      refine absurd (Columns.mem_own.2 ⟨Dict.mem_keys_iff.2 ⟨v, ?_⟩, hnot⟩) hc
      rw [h.get?_leafRow_own hsorted hnot, hget]

/-- The cell of a row that holds the key of its socket, or of its cpu. -/
theorem get?_laid_key (h : Splits r base groups out) (hsorted : Dict.Sorted leaf.2)
    (hevents : AreEvents leaf.2) {column key : String}
    (hcolumn : column = "socket" ∧ key = leaf.1.getD 0 "" ∨
      column = "cpu" ∧ key = leaf.1.getD 1 "") :
    Dict.get? (Record.laid (leafRow base leaf)) column = some key := by
  have hcommon : Columns.isCommon column = true := by
    rcases hcolumn with ⟨rfl, -⟩ | ⟨rfl, -⟩ <;> decide
  have hget : Dict.get? (leafRow base leaf) column = some (.text key) := by
    rw [h.get?_leafRow_common hsorted hevents hcommon]
    rcases hcolumn with ⟨rfl, rfl⟩ | ⟨rfl, rfl⟩
    · rw [if_neg (by decide), if_pos rfl]
    · rw [if_pos rfl]
  have hheader : column ∈ Record.header (leafRow base leaf) :=
    Columns.mem_header.2 (.inl (Columns.isCommon_iff.1 hcommon))
  rw [Record.get?_laid, if_pos hheader, Record.cellOf, hget]
  rfl

/-- **A row comes back as its leaf alone**, below the same keys and beside
whatever is read as the head of the row. -/
theorem ofRow_laid_of_head (h : Splits r base groups out) (hlength : leaf.1.length = 2)
    (hsorted : Dict.Sorted leaf.2) (hevents : AreEvents leaf.2) {head : Record}
    (hhead : Codec.commonFields (Record.laid (leafRow base leaf)) headFields [] = .ok head)
    (group : String) :
    Codec.counters.ofRow (Codec.fileOfGroup group) (Record.laid (leafRow base leaf)) =
      .ok (Dict.insert head groupsField
        (.map (Record.nest (group :: leaf.1) (rereadEvents leaf.2)))) := by
  show ofRow (Codec.fileOfGroup group) (Record.laid (leafRow base leaf)) = _
  unfold headFields at hhead
  unfold ofRow
  rw [hhead, h.ownFields_leafRow hsorted hevents,
    h.get?_laid_key hsorted hevents (.inl ⟨rfl, rfl⟩),
    h.get?_laid_key hsorted hevents (.inr ⟨rfl, rfl⟩), Codec.groupOfFile_fileOfGroup]
  obtain ⟨path, events⟩ := leaf
  obtain ⟨socket, cpu, rfl⟩ := List.length_eq_two.1 hlength
  rfl

/-- A row that can be stored comes back beside the head of the report. -/
theorem ofRow_laid (h : Splits r base groups out) (hlength : leaf.1.length = 2)
    (hsorted : Dict.Sorted leaf.2) (hevents : AreEvents leaf.2)
    (hstorable : Record.Storable (leafRow base leaf)) (group : String) :
    Codec.counters.ofRow (Codec.fileOfGroup group) (Record.laid (leafRow base leaf)) =
      .ok (Record.leafForm r (group :: leaf.1, leaf.2)) := by
  refine h.ofRow_laid_of_head hlength hsorted hevents ?_ group
  have hhead : (headFields.map fun f => (f, Record.readBack (leafRow base leaf) f)) =
      headFields.map fun f => (f, Record.readBack r f) := by
    apply List.map_congr_left
    intro f hf
    rw [h.readBack_leafRow hsorted hevents hf]
  rw [Codec.commonFields_laid hstorable (by decide), hhead]
  rfl

end Splits

end ReportStore

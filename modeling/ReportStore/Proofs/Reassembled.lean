/-
  ReportStore.Proofs.Reassembled
  ──────────────────────────────
  **A COUNTER REPORT IS PUT TOGETHER FROM ITS ROWS IN ANY ORDER.**

  The rows of a report lie in as many files as it has groups, and nothing
  orders the rows of one file against those of another.  Each row is one leaf
  of the report, and the report is the union of its leaves whatever comes
  first, so that

      union of the rows, each read from its cells  =  the report as retold

  where a report is retold with its time as an integer, with the texts of its
  sensor and target, and with its counters as their cells are read.  A group
  or a socket without a cpu has no row to be retold from; a cpu without
  events has one.
-/
import Mathlib.Data.List.Perm.Basic
import ReportStore.Proofs.Merge.Reencoded

namespace ReportStore

open Codec.Counters

/-! ## §1. The rows of a report, and what is read from them. -/

/-- The rows of all groups, each with its group. -/
def Codec.rowsOf (out : GroupRows) : List (String × Record) :=
  out.flatMap fun g => g.2.map (g.1, ·)

/-- What is read from the cells of a row, under the name of its group's file. -/
def Codec.readRow (codec : Codec) (row : String × Record) : Option (Except Fault Record) :=
  (Record.toRow? row.2).map (codec.ofRow (Codec.fileOfGroup row.1))

/-- The row of a leaf below a group, a socket and a cpu, with its group. -/
def groupedRow (base : Record) (leaf : List String × Record) : String × Record :=
  (leaf.1.headD "", leafRow base (leaf.1.tail, leaf.2))

namespace Record

variable {r : Record} {time : Int64}

/-- A field that tells a report, as it is read from the cell of a row. -/
def retoldField (time : Int64) (r : Record) (field : String) : Value :=
  if field = "timestamp" then .int time else .text (cellOf r field)

/-- The time, the sensor and the target of a report as they are read. -/
def retoldHead (time : Int64) (r : Record) : Record :=
  Dict.ofPairs (headFields.map fun f => (f, retoldField time r f))

/-- A report as it is read from its rows: what tells it, and its groups without
the branches that have no cpu. -/
def retold (time : Int64) (r : Record) : Record :=
  Dict.insert (retoldHead time r) groupsField (.map (pruned rereadEvents 3 (groupsOf r)))

theorem sorted_retoldHead (time : Int64) (r : Record) : Dict.Sorted (retoldHead time r) :=
  Dict.sorted_ofPairs _

theorem isScalar_retoldHead (time : Int64) (r : Record) (k : String) (v : Value)
    (hget : Dict.get? (retoldHead time r) k = some v) : v.isScalar = true := by
  rw [retoldHead, Dict.get?_ofPairs_map (retoldField time r)] at hget
  split at hget
  · injection hget with hget
    subst hget
    unfold retoldField
    split
    · rfl
    · rfl
  · cases hget

/-- A cell is read as the field that it retells, if the time is one. -/
theorem commonValue_cellOf
    (htime : Text.Digits.int64? (Text.trim (cellOf r "timestamp").toList) = some time)
    (field : String) :
    Codec.commonValue field (cellOf r field) = .ok (retoldField time r field) := by
  unfold Codec.commonValue retoldField
  by_cases hfield : field = "timestamp"
  · subst hfield
    simp only [if_true, htime]
  · simp only [if_neg hfield]

end Record

/-! ## §2. One row. -/

namespace Splits

variable {r base : Record} {out : GroupRows} {time : Int64} {leaf : List String × Record}

/-- The rows of a report are those of its leaves. -/
theorem rowsOf_eq (h : Splits r base (Record.groupsOf r) out) :
    Codec.rowsOf out = (Record.leaves 3 (Record.groupsOf r)).map (groupedRow base) :=
  h.flatMap_rows Prod.mk

/-- Every row has the head of the report, whatever its events are. -/
theorem commonFields_leafRow (h : Splits r base (Record.groupsOf r) out)
    (hsorted : Dict.Sorted leaf.2) (hevents : AreEvents leaf.2)
    (htime : Text.Digits.int64? (Text.trim (Record.cellOf r "timestamp").toList) = some time) :
    Codec.commonFields (Record.laid (leafRow base leaf)) headFields [] =
      .ok (Record.retoldHead time r) := by
  refine Codec.commonFields_of_cells ?_ []
  intro f hf
  have hcommon : Columns.isCommon f = true := by
    revert f
    decide
  refine ⟨_, Codec.get?_laid_common _ hcommon, ?_⟩
  rw [h.cellOf_leafRow hsorted hevents hf]
  exact Record.commonValue_cellOf htime f

/-- **A row is read as its leaf alone**, beside the head of the report. -/
theorem readRow_groupedRow (h : Splits r base (Record.groupsOf r) out) (hr : r.Ordered)
    (htime : Text.Digits.int64? (Text.trim (Record.cellOf r "timestamp").toList) = some time)
    (hleaf : leaf ∈ Record.leaves 3 (Record.groupsOf r)) :
    Codec.counters.readRow (groupedRow base leaf) =
      some (.ok (Dict.insert (Record.retoldHead time r) groupsField
        (.map (Record.nest leaf.1 (rereadEvents leaf.2))))) := by
  obtain ⟨group, below, hbelow, rfl⟩ := h.exists_group_of_mem_leaves hr hleaf
  obtain ⟨hlength, hsorted, hevents⟩ := h.of_mem_inGroup hr hbelow
  show (Record.toRow? (leafRow base below)).map
    (Codec.counters.ofRow (Codec.fileOfGroup group)) = _
  rw [h.toRow?_leafRow hsorted hevents, Option.map_some,
    h.ofRow_laid_of_head hlength hsorted hevents (h.commonFields_leafRow hsorted hevents htime)]

end Splits

/-! ## §3. All rows, in any order. -/

/-- An order of what a list is mapped to is an order of the list. -/
theorem exists_perm_of_perm_map {α β : Type} {f : α → β} {xs : List α} {ys : List β}
    (h : ys.Perm (xs.map f)) : ∃ zs : List α, zs.Perm xs ∧ ys = zs.map f := by
  have hcomp : Relation.Comp (· = List.map f ·) List.Perm ys xs := by
    rw [List.eq_map_comp_perm]
    exact h
  obtain ⟨zs, rfl, hperm⟩ := hcomp
  exact ⟨zs, hperm, rfl⟩

variable {r : Record} {out : GroupRows} {time : Int64}

/-- **A counter report is put together from its rows**, in whatever order they
are read: with the same time, sensor and target, every event of every cpu as
its cell is read, and nothing else. -/
theorem counterRows_reassembled {rows : List (String × Record)} (hr : r.Ordered)
    (hout : Codec.counters.toGroups r = .ok out)
    (htime : Text.Digits.int64? (Text.trim (Record.cellOf r "timestamp").toList) = some time)
    (hrows : rows.Perm (Codec.rowsOf out)) :
    ∃ fragments,
      rows.map Codec.counters.readRow = fragments.map (fun fragment => some (.ok fragment)) ∧
      Record.unionAll fragments = if rows = [] then [] else r.retold time := by
  obtain ⟨base, h⟩ := exists_splits_groupsOf hout
  rw [h.rowsOf_eq] at hrows
  obtain ⟨leaves, hperm, rfl⟩ := exists_perm_of_perm_map hrows
  refine ⟨leaves.map fun leaf => Dict.insert (Record.retoldHead time r) groupsField
    (.map (Record.nest leaf.1 (rereadEvents leaf.2))), ?_, ?_⟩
  · rw [List.map_map, List.map_map]
    apply List.map_congr_left
    intro leaf hleaf
    exact h.readRow_groupedRow hr htime (hperm.mem_iff.1 hleaf)
  · by_cases hnil : leaves = []
    · subst hnil
      rfl
    · have hnodup : (Record.leaves 3 (Record.groupsOf r)).Nodup :=
        List.Nodup.of_map _ (Record.nodup_leaves (h.ordered_groups hr))
      rw [if_neg (by rwa [List.map_eq_nil_iff]), h.unionAll_leaves hr
        (Record.sorted_retoldHead time r) (Record.isScalar_retoldHead time r) hnil
        (hperm.nodup_iff.2 hnodup) fun _ => hperm.mem_iff]
      rfl

/-- A report with a time in blanks, a cpu without events, a cpu and a group
without a name, a group named like a file, and branches without a cpu. -/
def patchyReport : Record :=
  [("extra", .int 9),
    ("groups", .map [
      ("", .map [("0", .map [("0", .map []), ("1", .map [("load", .text "2.50")])])]),
      ("a.csv", .map [("0", .map []), ("1", .map [("", .map [("clock", .int 7)])])]),
      ("idle", .map [])]),
    ("sensor", .int 5), ("target", .text "t"), ("timestamp", .text " 12 ")]

/-- Its three rows, the last one first, are united to what it has of counters. -/
theorem counterRows_reassembled_backwards :
    let out := (Codec.counters.toGroups patchyReport).toOption.getD []
    patchyReport.Ordered ∧ Codec.counters.toGroups patchyReport = .ok out ∧
      Text.Digits.int64? (Text.trim (Record.cellOf patchyReport "timestamp").toList) = some 12 ∧
      ∃ fragments,
        (Codec.rowsOf out).reverse.map Codec.counters.readRow =
          fragments.map (fun fragment => some (.ok fragment)) ∧
        Record.unionAll fragments =
          [("groups", .map [
              ("", .map [("0", .map [("0", .map []),
                ("1", .map [("load", .float ⟨0x4004000000000000⟩)])])]),
              ("a.csv", .map [("1", .map [("", .map [("clock", .int 7)])])])]),
            ("sensor", .text "5"), ("target", .text "t"), ("timestamp", .int 12)] := by
  intro out
  have hr : patchyReport.Ordered := by decide +kernel
  have hout : Codec.counters.toGroups patchyReport = .ok out :=
    eq_ok_of_toOption (by decide +kernel)
  have htime : Text.Digits.int64?
      (Text.trim (Record.cellOf patchyReport "timestamp").toList) = some 12 := by decide +kernel
  obtain ⟨fragments, hread, hunion⟩ :=
    counterRows_reassembled hr hout htime (List.reverse_perm (Codec.rowsOf out))
  refine ⟨hr, hout, htime, fragments, hread, hunion.trans ?_⟩
  decide +kernel

end ReportStore

/-
  ReportStore.Proofs.Saving.ReadBack
  ──────────────────────────────────
  **WHAT A CODEC FINDS IN A ROW THAT WAS LAID OUT.**

  A scalar is laid out as its cell, and a cell is read by its column: the
  time as an integer, the other common columns as the text they hold, and an
  own column as the narrowest scalar.  So a column that is no common one
  comes back as

      reread v  =  ofCell (cell of v)

  which is `v` itself for an integer, for a text that is not like a number,
  and for a finite double whose digits read back.
-/
import ReportStore.Proofs.Cells
import ReportStore.Proofs.Saving.Replay

namespace ReportStore

/-! ## §1. The columns of a row. -/

namespace Record

/-- What a column of a row comes back as. -/
def readBack (row : Record) (column : String) : Value :=
  if column = "timestamp" then .int (Int64.ofInt (time row))
  else if Columns.isCommon column then .text (cellOf row column)
  else Value.ofCell (cellOf row column)

variable {row : Record} {column : String} {v : Value}

theorem isScalar_readBack (row : Record) (column : String) :
    (readBack row column).isScalar = true := by
  unfold readBack
  split
  · rfl
  · split
    · rfl
    · exact Value.isScalar_ofCell _

theorem readBack_of_get? (hget : Dict.get? row column = some v)
    (hown : Columns.isCommon column = false) : readBack row column = v.reread := by
  have hcommon : column ≠ "timestamp" := by
    rintro rfl
    exact absurd hown (by decide)
  unfold readBack Value.reread cellOf
  rw [if_neg hcommon, if_neg (by rw [hown]; decide), hget, Option.bind_some]

/-- The time of a row that can be stored is read as an integer. -/
theorem Storable.commonValue (h : Storable row) (hcolumn : Columns.isCommon column = true) :
    Codec.commonValue column (cellOf row column) = .ok (readBack row column) := by
  unfold Codec.commonValue readBack
  by_cases htimestamp : column = "timestamp"
  · subst htimestamp
    obtain ⟨time', htime⟩ := h.timeOfCell?
    have htimed : Record.time row = time' := by
      unfold Record.time timed
      rw [htime, Option.getD_some]
    rw [if_pos rfl, if_pos rfl, htimed]
    -- A time is an integer of 64 bits that is in the range of the calendar.
    unfold ReportStore.timeOfCell? time? at htime
    cases hint : Text.Digits.int64? (Text.trim (cellOf row "timestamp").toList) with
    | none => simp only [hint, reduceCtorEq] at htime
    | some n =>
      simp only [hint] at htime
      split at htime
      · injection htime with htime
        simp only [← htime, Int64.ofInt_toInt]
      · cases htime
  · rw [if_neg htimestamp, if_neg htimestamp, if_pos hcolumn]

end Record

/-! ## §2. The fields of a row. -/

namespace Codec

variable {row : Record}

/-- The common fields of a row, by what each of its cells is read as. -/
theorem commonFields_of_cells {cells : Row} {read : String → Value} :
    ∀ {fields : List String},
      (∀ f ∈ fields, ∃ cell, Dict.get? cells f = some cell ∧ commonValue f cell = .ok (read f)) →
        ∀ out, commonFields cells fields out =
          .ok ((fields.map fun f => (f, read f)).foldl (fun d p => Dict.insert d p.1 p.2) out) := by
  intro fields
  induction fields with
  | nil => exact fun _ _ => rfl
  | cons f rest ih =>
    intro hfields out
    obtain ⟨⟨cell, hget, hread⟩, hrest⟩ := List.forall_mem_cons.1 hfields
    unfold commonFields
    simp only [hget, hread]
    exact ih hrest _

/-- A row that was laid out has a cell for every common column. -/
theorem get?_laid_common (row : Record) {f : String} (hf : Columns.isCommon f = true) :
    Dict.get? (Record.laid row) f = some (Record.cellOf row f) := by
  have hcolumn : f ∈ Record.header row := Columns.mem_header.2 (.inl (Columns.isCommon_iff.1 hf))
  rw [Record.get?_laid, if_pos hcolumn]

/-- **The common fields of a row that was laid out.** -/
theorem commonFields_laid (h : Record.Storable row) {fields : List String}
    (hfields : ∀ f ∈ fields, Columns.isCommon f = true) (out : Record) :
    commonFields (Record.laid row) fields out =
      .ok ((fields.map fun f => (f, Record.readBack row f)).foldl
        (fun d p => Dict.insert d p.1 p.2) out) :=
  commonFields_of_cells
    (fun f hf => ⟨_, get?_laid_common row (hfields f hf), h.commonValue (hfields f hf)⟩) out

/-- **The own fields of a row that was laid out.** -/
theorem ownFields_laid (row : Record) :
    ownFields (Record.laid row) =
      (Columns.own (Dict.keys row)).map fun c => (c, Record.readBack row c) := by
  have hown := Columns.own_pairwise (Dict.keys row)
  refine Dict.eq_of_get? ?_ (List.pairwise_map.2 hown) ?_
  · unfold ownFields Dict.mapValues Dict.Sorted
    rw [List.pairwise_map]
    exact (Dict.sorted_ofPairs _).filter _
  · intro c
    rw [Dict.get?_map_mk]
    unfold ownFields
    rw [Dict.get?_mapValues, Dict.get?_filter fun column => !Columns.isCommon column,
      Record.get?_laid]
    cases hcommon : Columns.isCommon c with
    | true =>
      have hnot : c ∉ Columns.own (Dict.keys row) := fun hc => by
        rw [(Columns.mem_own.1 hc).2] at hcommon
        cases hcommon
      rw [if_neg hnot]
      rfl
    | false =>
      have hiff : c ∈ Record.header row ↔ c ∈ Columns.own (Dict.keys row) := by
        unfold Record.header Columns.header
        rw [List.mem_append, ← Columns.isCommon_iff, hcommon]
        simp
      have hvalue : Value.ofCell (Record.cellOf row c) = Record.readBack row c := by
        unfold Record.readBack
        rw [if_neg (by rintro rfl; exact absurd hcommon (by decide)),
          if_neg (by rw [hcommon]; decide)]
      by_cases hc : c ∈ Columns.own (Dict.keys row)
      · rw [if_pos hc, if_pos (hiff.2 hc)]
        exact congrArg some hvalue
      · rw [if_neg hc, if_neg (mt hiff.1 hc)]
        rfl

end Codec

end ReportStore

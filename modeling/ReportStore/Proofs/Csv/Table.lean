/-
  ReportStore.Proofs.Csv.Table
  ────────────────────────────
  **TABLES AND THE RECORDS THEY ARE READ FROM.**

  A table without a fault determines the records of its file, field by
  field, and is determined by them: the first record spells the header, and
  each later one spells a row of as many cells.

      ofBytes bs = ⟨header, rows⟩  ↔  rawFields bs = header :: rows, in bytes

  Records have at least one field, so an empty header means that the file
  has no record at all.
-/
import ReportStore.Proofs.Csv.Growth

namespace ReportStore.Csv

/-! ## §1. The texts of a record. -/

theorem decodeFields_ok_iff : ∀ {fields : List Bytes} {cells : List String} (i : Nat),
    decodeFields i fields = .ok cells ↔ fields = cells.map Text.encode := by
  intro fields
  induction fields with
  | nil =>
    intro cells i
    show Except.ok [] = Except.ok cells ↔ _
    rw [Except.ok.injEq, eq_comm (a := ([] : List Bytes)), List.map_eq_nil_iff, eq_comm]
  | cons field rest ih =>
    intro cells i
    unfold decodeFields
    cases hfield : Text.decode? field with
    | none =>
      refine ⟨nofun, ?_⟩
      intro h
      obtain ⟨s, ss, rfl, hs, -⟩ := List.map_eq_cons_iff.1 h.symm
      rw [← hs, Text.decode?_encode] at hfield
      cases hfield
    | some s =>
      rw [Text.decode?_eq_some_iff] at hfield
      subst hfield
      cases cells with
      | nil => cases decodeFields (i + 1) rest <;> simp
      | cons c cs =>
        rw [List.map_cons, List.cons.injEq, ← ih (i + 1)]
        cases decodeFields (i + 1) rest with
        | error e => simp
        | ok ss =>
          simp only [Except.ok.injEq, List.cons.injEq]
          exact and_congr_left' ⟨congrArg _, Text.encode_injective⟩

theorem decodeRecord_ok_iff {number : Nat} {r : RawRecord} {cells : List String} :
    decodeRecord number r = .ok cells ↔ r.fields = cells.map Text.encode := by
  rw [← decodeFields_ok_iff 0]
  unfold decodeRecord
  cases decodeFields 0 r.fields with
  | error e => simp
  | ok ss => simp

/-- **A row** is a record that spells its cells, as many as the header has. -/
theorem decodeRow_ok_iff {width number : Nat} {r : RawRecord} {cells : List String} :
    decodeRow width number r = .ok cells ↔
      r.fields = cells.map Text.encode ∧ cells.length = width := by
  unfold decodeRow
  by_cases hwidth : r.fields.length = width
  · rw [if_pos hwidth, decodeRecord_ok_iff]
    refine ⟨fun h => ⟨h, ?_⟩, And.left⟩
    rw [← hwidth, h, List.length_map]
  · rw [if_neg hwidth]
    refine ⟨nofun, ?_⟩
    rintro ⟨h, rfl⟩
    rw [h, List.length_map] at hwidth
    exact absurd rfl hwidth

theorem decodeRows_ok_iff {width : Nat} : ∀ {rs : List RawRecord} {rows : List (List String)}
    (number : Nat), decodeRows width number rs = rows.map .ok ↔
      rs.map (·.fields) = rows.map (List.map Text.encode) ∧
        ∀ cells ∈ rows, cells.length = width := by
  intro rs
  induction rs with
  | nil =>
    intro rows number
    cases rows with
    | nil => simp [decodeRows]
    | cons cells rows => simp [decodeRows]
  | cons r rest ih =>
    intro rows number
    cases rows with
    | nil => simp [decodeRows]
    | cons cells rows =>
      unfold decodeRows
      simp only [List.map_cons, List.cons.injEq, decodeRow_ok_iff, ih, List.forall_mem_cons]
      exact ⟨fun h => ⟨⟨h.1.1, h.2.1⟩, h.1.2, h.2.2⟩, fun h => ⟨⟨h.1.1, h.2.1⟩, h.1.2, h.2.2⟩⟩

/-! ## §2. The table of a file. -/

/-- The records that are finished have a field. -/
theorem Scan.ne_nil_of_run : ∀ (bs : Bytes) {s : Scan} {site : Site} {f : Bytes}
    {fs : List Bytes} {done : List (List Bytes)}, s.reading = ⟨site, f, fs, done⟩ →
      (∀ fields ∈ done, fields ≠ []) →
        ∀ fields ∈ (s.run bs).records.map (·.fields), fields ≠ [] := by
  intro bs
  induction bs with
  | nil =>
    intro s site f fs done h hdone
    show ∀ fields ∈ s.records.map (·.fields), fields ≠ []
    by_cases hsite : site = .between
    · subst hsite
      rw [Scan.records_of_between h]
      exact fun fields hmem => hdone fields (List.mem_reverse.1 hmem)
    · rw [Scan.records_of_open h hsite]
      intro fields hmem
      rcases List.mem_append.1 hmem with hmem | hmem
      · exact hdone fields (List.mem_reverse.1 hmem)
      · rw [List.mem_singleton.1 hmem]
        simp
  | cons b bs ih =>
    intro s site f fs done h hdone
    rw [Scan.run_cons]
    rcases Scan.step_cases h b with ⟨-, hr⟩ | ⟨_, -, hr⟩ | ⟨_, -, hr⟩ | hr | ⟨-, hr⟩
    · exact ih hr hdone
    · exact ih hr hdone
    · exact ih hr hdone
    · exact ih hr hdone
    · refine ih hr ?_
      intro fields hmem
      rcases List.mem_cons.1 hmem with rfl | hmem
      · simp
      · exact hdone fields hmem

/-- **Every record has a field.** -/
theorem ne_nil_of_mem_rawFields {bs : Bytes} : ∀ fields ∈ rawFields bs, fields ≠ [] := by
  rw [rawFields_eq]
  unfold Scan.ofFile
  split
  · exact Scan.ne_nil_of_run _ rfl (by simp [Scan.initial])
  · exact Scan.ne_nil_of_run _ rfl (by simp [Scan.initial])

/-- The first record of a file spells a header that is not empty. -/
theorem ne_nil_of_rawFields_cons {bs : Bytes} {header : List String}
    {rows : List (List String)}
    (h : rawFields bs = (header :: rows).map (List.map Text.encode)) : header ≠ [] := by
  rintro rfl
  have hmem : [] ∈ rawFields bs := by
    rw [h]
    exact List.mem_cons_self
  exact ne_nil_of_mem_rawFields [] hmem rfl

/-- A file without a record is closed. -/
theorem closed_of_rawFields_eq_nil {bs : Bytes} (h : rawFields bs = []) : Closed bs := by
  rw [rawFields_eq] at h
  by_cases hclosed : Closed bs
  · exact hclosed
  · have hopen := Scan.records_of_open (s := Scan.ofFile bs) rfl hclosed
    rw [h] at hopen
    simp at hopen

theorem header_ok_iff {bs : Bytes} {header : List String} :
    (Table.ofBytes bs).header = .ok header ↔
      (rawFields bs = [] ∧ header = []) ∨
        ∃ rest, rawFields bs = header.map Text.encode :: rest := by
  unfold Table.ofBytes rawFields
  cases rawRecords bs with
  | nil => simp [eq_comm]
  | cons first rest => simp [decodeRecord_ok_iff]

theorem header_eq_nil_iff {bs : Bytes} :
    (Table.ofBytes bs).header = .ok [] ↔ rawFields bs = [] := by
  rw [header_ok_iff]
  constructor
  · rintro (⟨h, -⟩ | ⟨rest, h⟩)
    · exact h
    · -- A record that spells no cell has no field.
      exact absurd rfl (ne_nil_of_mem_rawFields [] (h ▸ List.mem_cons_self))
  · exact fun h => .inl ⟨h, rfl⟩

theorem length_of_mem_decodeRows {width : Nat} {cells : List String} :
    ∀ {rs : List RawRecord} {number : Nat}, .ok cells ∈ decodeRows width number rs →
      cells.length = width := by
  intro rs
  induction rs with
  | nil => exact fun h => nomatch h
  | cons r rest ih =>
    intro number h
    rcases List.mem_cons.1 h with hfirst | hrest
    · exact (decodeRow_ok_iff.1 hfirst.symm).2
    · exact ih hrest

/-- **A row has as many cells as the header**, which is not empty then. -/
theorem length_of_mem_rows {bs : Bytes} {header cells : List String}
    (hheader : (Table.ofBytes bs).header = .ok header)
    (hcells : .ok cells ∈ (Table.ofBytes bs).rows) :
    cells.length = header.length ∧ header ≠ [] := by
  constructor
  · unfold Table.ofBytes at hheader hcells
    cases hraw : rawRecords bs with
    | nil =>
      simp only [hraw] at hcells
      cases hcells
    | cons first rest =>
      simp only [hraw, decodeRecord_ok_iff] at hheader hcells
      rw [length_of_mem_decodeRows hcells, hheader, List.length_map]
  · rintro rfl
    -- Without a record there is no row.
    have hraw : rawRecords bs = [] := List.map_eq_nil_iff.1 (header_eq_nil_iff.1 hheader)
    unfold Table.ofBytes at hcells
    simp only [hraw] at hcells
    cases hcells

/-- **A table without a fault** and the records of its file. -/
theorem ofBytes_eq_iff {bs : Bytes} {header : List String} {rows : List (List String)} :
    Table.ofBytes bs = ⟨.ok header, rows.map .ok⟩ ↔
      (rawFields bs = [] ∧ header = [] ∧ rows = []) ∨
      (rawFields bs = (header :: rows).map (List.map Text.encode) ∧
        ∀ cells ∈ rows, cells.length = header.length) := by
  unfold Table.ofBytes rawFields
  cases rawRecords bs with
  | nil => simp [eq_comm]
  | cons first rest =>
    simp only [Table.mk.injEq, decodeRecord_ok_iff, decodeRows_ok_iff, List.map_cons,
      List.cons.injEq, reduceCtorEq, false_and, false_or, and_assoc]
    refine and_congr_right fun h => ?_
    rw [h, List.length_map]

end ReportStore.Csv

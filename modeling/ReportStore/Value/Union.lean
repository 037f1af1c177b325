/-
  ReportStore.Value.Union
  ───────────────────────
  **THE DEEP UNION OF RECORDS.**

  Fragments of one report are put together by a union that goes down into
  maps: where both sides hold a map the maps are united, anywhere else the
  newer value takes the place of the older one.

      at a key of the newer record only its value counts, or the union of
      the two maps; at any other key the older record stays as it is
-/
import ReportStore.Value.Basic

namespace ReportStore

/-! ## §1. The union. -/

mutual

/-- What a key holds after a newer value has come to it. -/
def Value.over (old : Option Value) : Value → Value
  | .map newer =>
    match old with
    | some (.map older) => .map (Record.union older newer)
    | _ => .map newer
  | .int n => .int n
  | .float x => .float x
  | .text s => .text s
termination_by structural newer => newer

/-- The union of a record with a newer one. -/
def Record.union (older : List (String × Value)) : List (String × Value) → List (String × Value)
  | [] => older
  | (k, v) :: rest =>
    Record.union (Dict.insert older k (Value.over (Dict.get? older k) v)) rest
termination_by structural newer => newer

end

/-- The union of records, the last one the newest. -/
def Record.unionAll (rs : List Record) : Record := rs.foldl Record.union []

/-! ## §2. Its laws. -/

@[simp] theorem Record.union_nil (r : Record) : Record.union r [] = r := by
  simp [Record.union]

theorem Record.union_cons (r : Record) (k : String) (v : Value) (rest : Record) :
    Record.union r ((k, v) :: rest) =
      Record.union (Dict.insert r k (Value.over (Dict.get? r k) v)) rest := by
  simp [Record.union]

/-- A scalar replaces whatever was there. -/
theorem Value.over_of_isScalar (old : Option Value) {v : Value} (h : v.isScalar) :
    Value.over old v = v := by
  cases v with
  | map entries => simp [Value.isScalar] at h
  | int n => simp [Value.over]
  | float x => simp [Value.over]
  | text s => simp [Value.over]

theorem Record.sorted_union {r : Record} (h : Dict.Sorted r) (s : Record) :
    Dict.Sorted (Record.union r s) := by
  induction s generalizing r with
  | nil => simpa using h
  | cons p rest ih =>
    obtain ⟨k, v⟩ := p
    rw [Record.union_cons]
    exact ih (Dict.sorted_insert h k _)

/-- A union is empty only if both sides are. -/
theorem Record.union_ne_nil {r s : Record} (h : r ≠ [] ∨ s ≠ []) : Record.union r s ≠ [] := by
  induction s generalizing r with
  | nil => simpa using h
  | cons p rest ih =>
    obtain ⟨k, v⟩ := p
    rw [Record.union_cons]
    exact ih (.inl (Dict.insert_ne_nil _ _ _))

theorem Record.foldl_union_ne_nil {r : Record} {rs : List Record}
    (h : r ≠ [] ∨ ∃ s ∈ rs, s ≠ []) : rs.foldl Record.union r ≠ [] := by
  induction rs generalizing r with
  | nil => simpa using h
  | cons s rest ih =>
    refine ih ?_
    rcases h with h | ⟨x, hx, hne⟩
    · exact .inl (Record.union_ne_nil (.inl h))
    · rcases List.mem_cons.1 hx with rfl | hx
      · exact .inl (Record.union_ne_nil (.inr hne))
      · exact .inr ⟨x, hx, hne⟩

/-- One record that is not empty is enough. -/
theorem Record.unionAll_ne_nil {rs : List Record} {s : Record} (hs : s ∈ rs) (hne : s ≠ []) :
    Record.unionAll rs ≠ [] :=
  Record.foldl_union_ne_nil (.inr ⟨s, hs, hne⟩)

end ReportStore

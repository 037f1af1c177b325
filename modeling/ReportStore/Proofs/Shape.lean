/-
  ReportStore.Proofs.Shape
  ────────────────────────
  **WHAT A RECORD LOOKS LIKE THAT WAS READ FROM FILES.**

  Files can hold any cells, but what a codec of the library makes of their
  rows has one of two shapes, and unions of records of a shape have it again:

      flat    the five common fields, and own fields as cells are read
      tree    timestamp, sensor and target, and below `groups` maps three
              levels deep, none of them empty, with such own fields as leaves

  The time is an integer, the other common fields are texts, and any other
  field is the narrowest scalar of some cell.
-/
import ReportStore.Proofs.Fragments
import ReportStore.Proofs.Merge.Run
import ReportStore.Proofs.Merge.Whole
import ReportStore.Proofs.Saving.CounterRows

namespace ReportStore

open Codec.Counters

/-! ## §1. Fields of a shape. -/

/-- A map in key order with each field as its key wants it, and with the
required fields among them. -/
structure Record.Shaped (P : String → Value → Prop) (required : List String) (r : Record) :
    Prop where
  sorted : Dict.Sorted r
  fields : ∀ k v, Dict.get? r k = some v → P k v
  present : ∀ k ∈ required, ∃ v, Dict.get? r k = some v

namespace Record.Shaped

variable {P : String → Value → Prop} {required required' : List String} {r s : Record}

theorem nil : Shaped P [] [] := ⟨Dict.sorted_nil, nofun, nofun⟩

theorem mono (h : Shaped P required r) (hsub : ∀ k ∈ required', k ∈ required) :
    Shaped P required' r :=
  ⟨h.sorted, h.fields, fun k hk => h.present k (hsub k hk)⟩

theorem of_mem (h : Shaped P required r) {p : String × Value} (hp : p ∈ r) : P p.1 p.2 :=
  h.fields p.1 p.2 ((Dict.mem_iff_get? h.sorted).1 hp)

/-- A field that is bound is there from then on. -/
theorem insert (h : Shaped P required r) {k : String} {v : Value} (hv : P k v) :
    Shaped P (k :: required) (Dict.insert r k v) := by
  refine ⟨Dict.sorted_insert h.sorted k v, ?_, ?_⟩
  · intro k' v' hget
    rw [Dict.get?_insert] at hget
    split at hget
    · next hk =>
      injection hget with hget
      exact hk ▸ hget ▸ hv
    · exact h.fields k' v' hget
  · intro k' hk'
    rw [Dict.get?_insert]
    by_cases hk : k' = k
    · exact ⟨v, if_pos hk⟩
    · rw [if_neg hk]
      exact h.present k' ((List.mem_cons.1 hk').resolve_left hk)

theorem insertAll {fields : Record} (hfields : ∀ p ∈ fields, P p.1 p.2)
    (h : Shaped P required r) :
    Shaped P required (fields.foldl (fun r p => Dict.insert r p.1 p.2) r) := by
  refine List.foldlRecOn (motive := Shaped P required) fields _ h ?_
  intro r h p hp
  exact (h.insert (hfields p hp)).mono fun k hk => List.mem_cons_of_mem _ hk

/-- **The union of maps of a shape has the shape**, if a field of the shape
that comes over another one does. -/
theorem union (hover : ∀ k old v, P k old → P k v → P k (Value.over (some old) v))
    (hr : Shaped P [] r) (hs : Shaped P required s) : Shaped P required (Record.union r s) := by
  refine ⟨sorted_union hr.sorted s, ?_, ?_⟩
  · intro k v hget
    rw [get?_union r hs.sorted] at hget
    cases hnew : Dict.get? s k with
    | none =>
      rw [hnew] at hget
      exact hr.fields k v hget
    | some w =>
      simp only [hnew, Option.some.injEq] at hget
      cases hold : Dict.get? r k with
      | none =>
        rw [hold, Value.over_none] at hget
        exact hget ▸ hs.fields k w hnew
      | some old =>
        rw [hold] at hget
        exact hget ▸ hover k old w (hr.fields k old hold) (hs.fields k w hnew)
  · intro k hk
    obtain ⟨w, hw⟩ := hs.present k hk
    rw [get?_union r hs.sorted, hw]
    exact ⟨_, rfl⟩

theorem unionAll (hover : ∀ k old v, P k old → P k v → P k (Value.over (some old) v))
    {rs : List Record} (hne : rs ≠ []) (h : ∀ s ∈ rs, Shaped P required s) :
    Shaped P required (Record.unionAll rs) := by
  obtain ⟨first, rest, rfl⟩ := List.exists_cons_of_ne_nil hne
  obtain ⟨hfirst, hrest⟩ := List.forall_mem_cons.1 h
  show Shaped P required (rest.foldl Record.union (Record.union [] first))
  -- What is required is there after the first record, and with each one that follows.
  refine List.foldlRecOn (motive := Shaped P required) rest _ (union hover nil hfirst) ?_
  exact fun r hr s hs => union hover (hr.mono nofun) (hrest s hs)

end Record.Shaped

/-! ## §2. Fields as they are read. -/

/-- A field as codecs read it from a cell: a time as an integer, another
common field as text, and an own field as the narrowest scalar. -/
def IsRead (field : String) (v : Value) : Prop :=
  if field = "timestamp" then ∃ n : Int64, time? n.toInt = some n.toInt ∧ v = .int n
  else if Columns.isCommon field then ∃ s, v = .text s
  else ∃ cell, v = Value.ofCell cell

section

variable {field : String} {v : Value}

theorem isRead_time {n : Int64} (h : time? n.toInt = some n.toInt) :
    IsRead "timestamp" (.int n) := by
  unfold IsRead
  rw [if_pos rfl]
  exact ⟨n, h, rfl⟩

theorem isRead_own (hfield : Columns.isCommon field = false) (cell : String) :
    IsRead field (Value.ofCell cell) := by
  unfold IsRead
  rw [if_neg (by rintro rfl; exact absurd hfield (by decide)), if_neg (by rw [hfield]; decide)]
  exact ⟨cell, rfl⟩

theorem IsRead.isScalar (h : IsRead field v) : v.isScalar = true := by
  unfold IsRead at h
  split at h
  · obtain ⟨n, -, rfl⟩ := h
    rfl
  · split at h
    · obtain ⟨s, rfl⟩ := h
      rfl
    · obtain ⟨cell, rfl⟩ := h
      exact Value.isScalar_ofCell cell

/-- Of fields that are read the newer one counts. -/
theorem IsRead.over (h : IsRead field v) (old : Option Value) :
    IsRead field (Value.over old v) := by
  rw [Value.over_of_isScalar old h.isScalar]
  exact h

theorem timeOfCell?_intCell (n : Int64) : timeOfCell? (Value.intCell n) = time? n.toInt := by
  unfold timeOfCell? Value.intCell
  simp only [String.toList_ofList, Text.Digits.trim_ofInt, Text.Digits.int64?_ofInt]

/-- **What was read comes back**: a field as it is read has a cell that is
read as it. -/
theorem IsRead.readBack_eq (h : IsRead field v) {row : Record}
    (hget : Dict.get? row field = some v) : Record.readBack row field = v := by
  unfold IsRead at h
  unfold Record.readBack
  split at h
  · next hfield =>
    subst hfield
    obtain ⟨n, htime, rfl⟩ := h
    have hcell : Record.cellOf row "timestamp" = Value.intCell n := by
      unfold Record.cellOf
      rw [hget]
      rfl
    have htimed : Record.time row = n.toInt := by
      unfold Record.time Record.timed
      rw [hcell, timeOfCell?_intCell, htime, Option.getD_some]
    rw [if_pos rfl, htimed, Int64.ofInt_toInt]
  · next hfield =>
    rw [if_neg hfield]
    split at h
    · next hcommon =>
      obtain ⟨s, rfl⟩ := h
      rw [if_pos hcommon]
      unfold Record.cellOf
      rw [hget]
      rfl
    · next hown =>
      obtain ⟨cell, rfl⟩ := h
      rw [if_neg hown]
      unfold Record.cellOf
      rw [hget]
      exact Value.reread_ofCell cell

end

/-! ## §3. The two shapes. -/

namespace Record

/-- A flat record: the common fields, and own fields. -/
def Flat (r : Record) : Prop := Shaped IsRead Columns.common r

/-- Maps of some depth, none of them empty, above fields that are own ones. -/
def Tree : (depth : Nat) → Record → Prop
  | 0, r => Shaped (fun event v => Columns.isCommon event = false ∧ IsRead event v) [] r
  | depth + 1, r => r ≠ [] ∧ Shaped (fun _ v => ∃ m, v = .map m ∧ Tree depth m) [] r

/-- A field of a record with groups. -/
def IsTreeField (field : String) (v : Value) : Prop :=
  if field = groupsField then ∃ groups, v = .map groups ∧ Tree 3 groups
  else field ∈ headFields ∧ IsRead field v

/-- A record with groups: the fields that tell it, and a tree of events. -/
def Grouped (r : Record) : Prop := Shaped IsTreeField (groupsField :: headFields) r

variable {depth : Nat} {r s : Record}

theorem isRead_over (field : String) (old v : Value) (_ : IsRead field old) (h : IsRead field v) :
    IsRead field (Value.over (some old) v) := h.over _

/-- Trees of one depth are united to a tree: down to the leaves maps come
over maps, and below fields over fields. -/
theorem Tree.union : ∀ {depth : Nat} {r s : Record}, Tree depth r → Tree depth s →
    Tree depth (Record.union r s) := by
  intro depth
  induction depth with
  | zero =>
    intro r s hr hs
    exact Shaped.union (fun k old v _ hv => ⟨hv.1, hv.2.over _⟩) hr hs
  | succ depth ih =>
    intro r s hr hs
    refine ⟨union_ne_nil (.inl hr.1), Shaped.union ?_ hr.2 hs.2⟩
    -- A map comes over a map, so the two are united one level further down.
    rintro _ _ _ ⟨older, rfl, holder⟩ ⟨newer, rfl, hnewer⟩
    exact ⟨Record.union older newer, by simp [Value.over], ih holder hnewer⟩

/-- One more level with a single key. -/
theorem Tree.single (h : Tree depth r) (k : String) : Tree (depth + 1) [(k, .map r)] := by
  refine ⟨by simp, ?_⟩
  have hone : Shaped (fun _ v => ∃ m, v = .map m ∧ Tree depth m) [k]
      (Dict.insert [] k (.map r)) := Shaped.nil.insert ⟨r, rfl, h⟩
  exact hone.mono nofun

theorem isTreeField_over (field : String) (old v : Value) (hold : IsTreeField field old)
    (h : IsTreeField field v) : IsTreeField field (Value.over (some old) v) := by
  unfold IsTreeField at hold h ⊢
  split at h
  · next hfield =>
    rw [if_pos hfield] at hold ⊢
    obtain ⟨older, rfl, holder⟩ := hold
    obtain ⟨newer, rfl, hnewer⟩ := h
    exact ⟨Record.union older newer, by simp [Value.over], holder.union hnewer⟩
  · next hfield =>
    rw [if_neg hfield] at ⊢
    exact ⟨h.1, h.2.over _⟩

end Record

/-! ## §4. What the codecs make of a row. -/

namespace Codec

variable {row : Row} {time : Int} {P : String → Value → Prop}

theorem isRead_commonValue (htime : row.time? = some time) {field cell : String}
    (hget : Dict.get? row field = some cell) (hfield : Columns.isCommon field = true) {v : Value}
    (h : commonValue field cell = .ok v) : IsRead field v := by
  unfold commonValue at h
  split at h
  · next htimestamp =>
    -- The integer was read before, as the time of the row, and is in range.
    subst htimestamp
    obtain ⟨cell', hget', htimed⟩ := get?_timestamp_of_time htime
    rw [hget] at hget'
    injection hget' with hget'
    subst hget'
    unfold timeOfCell? at htimed
    split at h
    · next n hint =>
      injection h with h
      simp only [hint, time?] at htimed
      split at htimed
      · next hrange => exact h ▸ isRead_time (if_pos hrange)
      · cases htimed
    · cases h
  · next hother =>
    injection h with h
    unfold IsRead
    rw [if_neg hother, if_pos hfield]
    exact ⟨cell, h.symm⟩

/-- **The common fields of a whole row** are all there, as they are read. -/
theorem shaped_commonFields (hrow : row.Whole) (htime : row.time? = some time) :
    ∀ {fields done : List String} {out r : Record},
      (∀ f ∈ fields, Columns.isCommon f = true ∧ ∀ v, IsRead f v → P f v) →
        Record.Shaped P done out → commonFields row fields out = .ok r →
          Record.Shaped P (fields ++ done) r := by
  intro fields
  induction fields with
  | nil =>
    intro done out r _ hout h
    injection h with h
    exact h ▸ hout
  | cons field rest ih =>
    intro done out r hfields hout h
    obtain ⟨⟨hcommon, hP⟩, hrest⟩ := List.forall_mem_cons.1 hfields
    obtain ⟨cell, hget⟩ := hrow.common field (Columns.isCommon_iff.1 hcommon)
    unfold commonFields at h
    cases hvalue : commonValue field cell with
    | error e => simp only [hget, hvalue, reduceCtorEq] at h
    | ok v =>
      simp only [hget, hvalue] at h
      have hv := hP v (isRead_commonValue htime hget hcommon hvalue)
      -- The field is done now, where it stood among those to come.
      refine (ih hrest (hout.insert hv) h).mono ?_
      intro k hk
      simp only [List.cons_append, List.mem_cons, List.mem_append] at hk ⊢
      tauto

theorem isRead_ownFields {p : String × Value} (hp : p ∈ ownFields row) :
    Columns.isCommon p.1 = false ∧ IsRead p.1 p.2 := by
  obtain ⟨hown, cell, -, hcell⟩ := mem_ownFields hp
  exact ⟨hown, hcell ▸ isRead_own hown cell⟩

/-- **A row of a power report is read as a flat record.** -/
theorem flat_power (hrow : row.Whole) (htime : row.time? = some time) {fileName : String}
    {fragment : Record} (h : power.ofRow fileName row = .ok fragment) : fragment.Flat := by
  have h' : Power.ofRow fileName row = .ok fragment := h
  unfold Power.ofRow at h'
  cases hcommon : commonFields row Columns.common [] with
  | error e => simp only [hcommon, reduceCtorEq] at h'
  | ok out =>
    simp only [hcommon, Except.ok.injEq] at h'
    subst h'
    have hout : Record.Shaped IsRead (Columns.common ++ []) out := by
      refine shaped_commonFields hrow htime ?_ Record.Shaped.nil hcommon
      exact fun f hf => ⟨Columns.isCommon_iff.2 hf, fun _ hv => hv⟩
    exact (hout.mono fun k hk => List.mem_append_left _ hk).insertAll
      fun p hp => (isRead_ownFields hp).2

/-- **A row of a counter report is read as a record with groups**: a tree
with one leaf. -/
theorem grouped_counters (hrow : row.Whole) (htime : row.time? = some time) {fileName : String}
    {fragment : Record} (h : counters.ofRow fileName row = .ok fragment) : fragment.Grouped := by
  have h' : Counters.ofRow fileName row = .ok fragment := h
  unfold Counters.ofRow at h'
  cases hcommon : commonFields row ["timestamp", "sensor", "target"] [] with
  | error e => simp only [hcommon, reduceCtorEq] at h'
  | ok out =>
    simp only [hcommon, Except.ok.injEq] at h'
    subst h'
    have hout : Record.Shaped Record.IsTreeField (headFields ++ []) out := by
      refine shaped_commonFields hrow htime ?_ Record.Shaped.nil hcommon
      intro f hf
      have hfield : Columns.isCommon f = true ∧ f ≠ groupsField := by
        simp only [headFields, List.mem_cons, List.not_mem_nil, or_false] at hf
        rcases hf with rfl | rfl | rfl <;> decide
      refine ⟨hfield.1, fun v hv => ?_⟩
      unfold Record.IsTreeField
      rw [if_neg hfield.2]
      exact ⟨hf, hv⟩
    have hevents : Record.Tree 0 (ownFields row) := by
      refine ⟨sorted_ownFields hrow.sorted, ?_, List.forall_mem_nil _⟩
      intro event v hget
      exact isRead_ownFields (Dict.mem_of_get? hget)
    refine (hout.mono fun k hk => List.mem_append_left _ hk).insert ?_
    unfold Record.IsTreeField
    rw [if_pos rfl]
    exact ⟨_, rfl, ((hevents.single _).single _).single _⟩

end Codec

/-! ## §5. What a merge hands out. -/

namespace Merge

variable {codec : Codec} {m : Merge} {r : Record}

/-- What is handed out is the union of fragments of whole rows in time. -/
theorem unionAll_of_next (hm : m.Whole) (h : (m.next codec).result = .ok (some r)) :
    ∃ fragments, r = Record.unionAll fragments ∧ fragments ≠ [] ∧
      ∀ fragment ∈ fragments, ∃ (fileName : String) (row : Row) (time : Int),
        row.Whole ∧ row.time? = some time ∧ codec.ofRow fileName row = .ok fragment := by
  obtain ⟨w, hphase⟩ := phase_of_result (by rw [h]; nofun)
  obtain ⟨hr, hne, -⟩ := next_some hphase h
  refine ⟨m.due codec w, hr, ?_, ?_⟩
  · intro hnil
    rw [hr, hnil] at hne
    exact hne rfl
  · intro fragment hfragment
    obtain ⟨s, hs, f, hf, row, hrow, htime, hdecoded⟩ := exists_row_of_mem_dueFrom hfragment
    exact ⟨f.fileName, row, w, hm s hs f hf row hrow, htime, hdecoded⟩

/-- **Merged power reports are flat.** -/
theorem flat_of_next (hm : m.Whole) (h : (m.next .power).result = .ok (some r)) : r.Flat := by
  obtain ⟨fragments, rfl, hne, hfragments⟩ := unionAll_of_next hm h
  refine Record.Shaped.unionAll Record.isRead_over hne ?_
  intro fragment hfragment
  obtain ⟨fileName, row, time, hrow, htime, hdecoded⟩ := hfragments fragment hfragment
  exact Codec.flat_power hrow htime hdecoded

/-- **Merged counter reports have groups.** -/
theorem grouped_of_next (hm : m.Whole) (h : (m.next .counters).result = .ok (some r)) :
    r.Grouped := by
  obtain ⟨fragments, rfl, hne, hfragments⟩ := unionAll_of_next hm h
  refine Record.Shaped.unionAll Record.isTreeField_over hne ?_
  intro fragment hfragment
  obtain ⟨fileName, row, time, hrow, htime, hdecoded⟩ := hfragments fragment hfragment
  exact Codec.grouped_counters hrow htime hdecoded

end Merge

end ReportStore

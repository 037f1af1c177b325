/-
  ReportStore.Proofs.Fragments
  ────────────────────────────
  **WHAT A CODEC MAKES OF A ROW.**

  A codec need not refuse any row, but what it makes of one is a record: a
  map with its keys in order, at every depth.  For the codecs of the library
  this follows from how a fragment is built, field by field:

      common fields  ──insert──▶  own fields        (power reports)
      head fields    ──insert──▶  one nested map    (counter reports)
-/
import ReportStore.Proofs.LastWord
import ReportStore.Codec.Counters
import ReportStore.Codec.Power

namespace ReportStore

namespace Codec

/-- Whether a codec makes records in key order of rows in key order. -/
def Ordered (codec : Codec) : Prop :=
  ∀ {fileName : String} {row : Row} {fragment : Record}, Dict.Sorted row →
    codec.ofRow fileName row = .ok fragment → fragment.Ordered

variable {row : Row}

theorem isScalar_commonValue {field cell : String} {v : Value}
    (h : commonValue field cell = .ok v) : v.isScalar = true := by
  unfold commonValue at h
  split at h
  · split at h
    · injection h with h
      exact h ▸ rfl
    · cases h
  · injection h with h
    exact h ▸ rfl

theorem ordered_commonFields {fields : List String} : ∀ {out r : Record}, out.Ordered →
    commonFields row fields out = .ok r → r.Ordered := by
  induction fields with
  | nil =>
    intro out r hout h
    injection h with h
    exact h ▸ hout
  | cons field rest ih =>
    intro out r hout h
    unfold commonFields at h
    cases hget : Dict.get? row field with
    | none =>
      simp only [hget] at h
      exact ih hout h
    | some cell =>
      simp only [hget] at h
      cases hvalue : commonValue field cell with
      | error e => simp only [hvalue, reduceCtorEq] at h
      | ok v =>
        simp only [hvalue] at h
        have hv := Record.isOrdered_of_isScalar (isScalar_commonValue hvalue)
        exact ih (hout.insert field hv) h

theorem mem_ownFields {p : String × Value} (h : p ∈ ownFields row) :
    Columns.isCommon p.1 = false ∧ ∃ cell, (p.1, cell) ∈ row ∧ p.2 = Value.ofCell cell := by
  obtain ⟨q, hq, rfl⟩ := List.mem_map.1 h
  obtain ⟨hmem, hown⟩ := List.mem_filter.1 hq
  exact ⟨by simpa using hown, q.2, hmem, rfl⟩

theorem isScalar_ownFields {p : String × Value} (h : p ∈ ownFields row) :
    p.2.isScalar = true := by
  obtain ⟨-, cell, -, hp⟩ := mem_ownFields h
  exact hp ▸ Value.isScalar_ofCell cell

theorem sorted_ownFields (h : Dict.Sorted row) : Dict.Sorted (ownFields row) := by
  unfold ownFields Dict.mapValues Dict.Sorted
  rw [List.pairwise_map]
  exact h.filter _

theorem ordered_power : power.Ordered := by
  intro fileName row fragment _ hrow
  have hrow' : Power.ofRow fileName row = .ok fragment := hrow
  unfold Power.ofRow at hrow'
  cases hcommon : commonFields row Columns.common [] with
  | error e => simp only [hcommon, reduceCtorEq] at hrow'
  | ok out =>
    simp only [hcommon] at hrow'
    injection hrow' with hrow'
    subst hrow'
    refine List.foldlRecOn (motive := Record.Ordered) (ownFields row) _
      (ordered_commonFields Record.ordered_nil hcommon) ?_
    intro r hr p hp
    exact hr.insert p.1 (Record.isOrdered_of_isScalar (isScalar_ownFields hp))

theorem ordered_counters : counters.Ordered := by
  intro fileName row fragment hsorted hrow
  have hrow' : Counters.ofRow fileName row = .ok fragment := hrow
  unfold Counters.ofRow at hrow'
  cases hcommon : commonFields row ["timestamp", "sensor", "target"] [] with
  | error e => simp only [hcommon, reduceCtorEq] at hrow'
  | ok out =>
    simp only [hcommon] at hrow'
    injection hrow' with hrow'
    subst hrow'
    refine (ordered_commonFields Record.ordered_nil hcommon).insert _ ?_
    -- Below the one key of each level there is the next one, and last the events.
    have hone : ∀ {k : String} {m : Record}, m.Ordered → Record.Ordered [(k, .map m)] :=
      fun {k m} hm => Record.ordered_nil.insert k hm
    exact hone (hone (hone
      (Record.ordered_of_scalars (sorted_ownFields hsorted) fun _ => isScalar_ownFields)))

theorem ordered {codec : Codec} (h : codec ∈ [power, counters]) : codec.Ordered := by
  simp only [List.mem_cons, List.not_mem_nil, or_false] at h
  rcases h with rfl | rfl
  · exact ordered_power
  · exact ordered_counters

end Codec

end ReportStore

/-
  ReportStore.Proofs.Columns
  ──────────────────────────
  **HEADERS AND THE ROWS UNDER THEM.**

  A header depends on the set of the own columns only, holds every common
  column, and repeats none.  So a row that is laid out under its header can
  be taken apart again: each column has one cell.

      header a = header b  ↔  a and b have the same own columns
-/
import ReportStore.Columns
import ReportStore.Feed

namespace ReportStore

/-! ## §1. Keys of a map. -/

namespace Dict

variable {α : Type}

theorem mem_keys_iff {d : Dict α} {k : String} : k ∈ keys d ↔ ∃ v, get? d k = some v := by
  induction d with
  | nil => simp [keys, get?]
  | cons p rest ih =>
    obtain ⟨k', v⟩ := p
    show k ∈ k' :: keys rest ↔ ∃ w, (if k' = k then some v else get? rest k) = some w
    rw [List.mem_cons, ih]
    by_cases hk : k' = k
    · simp [hk]
    · simp [hk, Ne.symm hk]

/-- What a key is bound to is an entry. -/
theorem mem_of_get? {d : Dict α} {k : String} {v : α} (h : get? d k = some v) : (k, v) ∈ d := by
  induction d with
  | nil => cases h
  | cons p rest ih =>
    obtain ⟨k', v'⟩ := p
    rw [get?] at h
    by_cases hk : k' = k
    · rw [if_pos hk] at h
      injection h with h
      rw [hk, h]
      exact List.mem_cons_self
    · rw [if_neg hk] at h
      exact List.mem_cons_of_mem _ (ih h)

/-- In a map in key order every entry is the one of its key. -/
theorem mem_iff_get? {d : Dict α} (h : Sorted d) {k : String} {v : α} :
    (k, v) ∈ d ↔ get? d k = some v := by
  induction d with
  | nil => simp
  | cons p rest ih =>
    obtain ⟨k', v'⟩ := p
    obtain ⟨hlt, hrest⟩ := List.pairwise_cons.1 h
    rw [List.mem_cons, get?]
    by_cases hk : k' = k
    · subst hk
      have hnot : (k', v) ∉ rest := fun hmem => String.lt_irrefl k' (hlt (k', v) hmem)
      simp [hnot, eq_comm]
    · simp [hk, Ne.symm hk, ih hrest]

/-- The look-up of a function on some keys. -/
theorem get?_map_mk (f : String → α) (ks : List String) (k : String) :
    get? (ks.map fun k => (k, f k)) k = if k ∈ ks then some (f k) else none := by
  induction ks with
  | nil => rfl
  | cons k' ks ih =>
    rw [List.map_cons, get?, ih]
    by_cases hk : k' = k
    · simp [hk]
    · simp [hk, Ne.symm hk]

theorem get?_mapValues {β : Type} (f : α → β) (d : Dict α) (k : String) :
    get? (mapValues f d) k = (get? d k).map f := by
  induction d with
  | nil => rfl
  | cons p rest ih =>
    unfold mapValues at ih ⊢
    rw [List.map_cons, get?, get?, ih]
    split <;> rfl

/-- Bindings that are left out by their key. -/
theorem get?_filter (q : String → Bool) (d : Dict α) (k : String) :
    get? (d.filter fun p => q p.1) k = if q k then get? d k else none := by
  induction d with
  | nil => simp
  | cons p rest ih =>
    rw [List.filter_cons]
    by_cases hk : p.1 = k
    · subst hk
      by_cases hq : q p.1 = true
      · simp [hq, get?]
      · simp [hq, ih]
    · by_cases hq : q p.1 = true
      · rw [if_pos hq, get?, if_neg hk, ih, get?, if_neg hk]
      · rw [if_neg hq, ih, get?, if_neg hk]

theorem sorted_mapValues {β : Type} (f : α → β) {d : Dict α} (h : Sorted d) :
    Sorted (mapValues f d) := by
  unfold mapValues Sorted
  rw [List.pairwise_map]
  exact h

/-- All bindings of a map in key order, added to another. -/
theorem get?_foldl_insert_of_sorted {d : Dict α} (h : Sorted d) (k : String) : ∀ e : Dict α,
    get? (d.foldl (fun e p => Dict.insert e p.1 p.2) e) k = (get? d k).or (get? e k) := by
  induction d with
  | nil => exact fun _ => rfl
  | cons p rest ih =>
    intro e
    obtain ⟨hlt, hrest⟩ := List.pairwise_cons.1 h
    rw [List.foldl_cons, ih hrest, get?_insert, get?]
    by_cases hk : p.1 = k
    · subst hk
      rw [get?_eq_none_of_lt hlt]
      simp
    · rw [if_neg hk, if_neg (Ne.symm hk)]

theorem ofPairs_of_sorted {d : Dict α} (h : Sorted d) : ofPairs d = d := by
  refine eq_of_get? (sorted_ofPairs d) h ?_
  intro k
  unfold ofPairs
  rw [get?_foldl_insert_of_sorted h, get?_nil, Option.or_none]

theorem nodup_keys {d : Dict α} (h : Sorted d) : (keys d).Nodup := by
  unfold keys List.Nodup
  rw [List.pairwise_map]
  refine List.Pairwise.imp ?_ h
  intro p q hlt heq
  exact String.lt_irrefl _ (heq ▸ hlt)

/-- What is bound stays bound to the value of its key. -/
theorem get?_foldl_insert (f : String → α) (k : String) : ∀ (ks : List String) (d : Dict α),
    get? ((ks.map fun k => (k, f k)).foldl (fun d p => Dict.insert d p.1 p.2) d) k =
      if k ∈ ks then some (f k) else get? d k := by
  intro ks
  induction ks with
  | nil => exact fun _ => rfl
  | cons k' ks ih =>
    intro d
    rw [List.map_cons, List.foldl_cons, ih, get?_insert]
    by_cases hks : k ∈ ks
    · rw [if_pos hks, if_pos (List.mem_cons_of_mem _ hks)]
    · by_cases hk : k = k'
      · subst hk
        rw [if_neg hks, if_pos rfl, if_pos List.mem_cons_self]
      · have hcons : k ∉ k' :: ks := by simp [hk, hks]
        rw [if_neg hks, if_neg hk, if_neg hcons]

/-- **The map of a function on some keys.** -/
theorem get?_ofPairs_map (f : String → α) (ks : List String) (k : String) :
    get? (ofPairs (ks.map fun k => (k, f k))) k = if k ∈ ks then some (f k) else none :=
  get?_foldl_insert f k ks []

/-- Each key that some pairs bind is bound after them. -/
theorem exists_get?_foldl_insert {k : String} : ∀ {pairs : List (String × α)} {d : Dict α},
    k ∈ pairs.map (·.1) ∨ (∃ v, get? d k = some v) →
      ∃ v, get? (pairs.foldl (fun d p => Dict.insert d p.1 p.2) d) k = some v := by
  intro pairs
  induction pairs with
  | nil =>
    intro d h
    rcases h with h | h
    · cases h
    · exact h
  | cons p rest ih =>
    intro d h
    refine ih ?_
    by_cases hk : k = p.1
    · exact .inr ⟨p.2, by rw [get?_insert, if_pos hk]⟩
    · rcases h with h | ⟨v, hv⟩
      · exact .inl ((List.mem_cons.1 h).resolve_left hk)
      · exact .inr ⟨v, by rw [get?_insert, if_neg hk, hv]⟩

end Dict

/-! ## §2. Headers. -/

namespace Columns

theorem mem_own {fields : List String} {c : String} :
    c ∈ own fields ↔ c ∈ fields ∧ isCommon c = false := by
  unfold own
  rw [Dict.mem_keys_iff, Dict.get?_ofPairs_map (fun _ => ())]
  by_cases hc : c ∈ fields.filter fun f => !isCommon f
  · rw [if_pos hc]
    simpa using hc
  · rw [if_neg hc]
    simpa using hc

/-- The own columns ascend. -/
theorem own_pairwise (fields : List String) : (own fields).Pairwise (· < ·) := by
  unfold own Dict.keys
  rw [List.pairwise_map]
  exact Dict.sorted_ofPairs _

theorem isCommon_iff {c : String} : isCommon c = true ↔ c ∈ common := List.contains_iff_mem

/-- **Headers are equal iff the own columns are the same.** -/
theorem header_eq_iff {a b : List String} :
    header a = header b ↔ ∀ c, isCommon c = false → (c ∈ a ↔ c ∈ b) := by
  unfold header
  rw [List.append_cancel_left_eq]
  constructor
  · intro h c hc
    have hmem : c ∈ own a ↔ c ∈ own b := by rw [h]
    rw [mem_own, mem_own] at hmem
    exact ⟨fun ha => (hmem.1 ⟨ha, hc⟩).1, fun hb => (hmem.2 ⟨hb, hc⟩).1⟩
  · intro h
    -- Both are the keys of a sorted map, and the maps have the same look-ups.
    unfold own
    rw [Dict.eq_of_get? (Dict.sorted_ofPairs _) (Dict.sorted_ofPairs _)]
    intro c
    rw [Dict.get?_ofPairs_map (fun _ => ()), Dict.get?_ofPairs_map (fun _ => ())]
    have hiff : c ∈ a.filter (fun f => !isCommon f) ↔ c ∈ b.filter (fun f => !isCommon f) := by
      simp only [List.mem_filter, Bool.not_eq_true']
      exact ⟨fun hc => ⟨(h c hc.2).1 hc.1, hc.2⟩, fun hc => ⟨(h c hc.2).2 hc.1, hc.2⟩⟩
    simp only [hiff]

theorem nodup_header (fields : List String) : (header fields).Nodup := by
  have hcommon : common.Nodup := by decide
  refine List.nodup_append.2 ⟨hcommon, Dict.nodup_keys (Dict.sorted_ofPairs _), ?_⟩
  rintro c hc _ hown rfl
  have hnot := (mem_own.1 hown).2
  rw [isCommon_iff.2 hc] at hnot
  cases hnot

/-- A column of a header is a common one, or a field. -/
theorem mem_header {fields : List String} {c : String} :
    c ∈ header fields ↔ c ∈ common ∨ c ∈ fields := by
  unfold header
  rw [List.mem_append, mem_own]
  constructor
  · exact Or.imp_right And.left
  · rintro (hc | hc)
    · exact .inl hc
    · cases hcommon : isCommon c with
      | true => exact .inl (isCommon_iff.1 hcommon)
      | false => exact .inr ⟨hc, rfl⟩

theorem missingCommon_header (fields : List String) : missingCommon (header fields) = [] := by
  unfold missingCommon
  rw [List.filter_eq_nil_iff]
  intro c hc
  have hmem : c ∈ header fields := mem_header.2 (.inl hc)
  simp [hmem]

theorem header_ne_nil (fields : List String) : header fields ≠ [] := by
  unfold header common
  simp

end Columns

/-! ## §3. Rows under a header. -/

namespace Row

/-- A row has each column once, in order. -/
theorem sorted_ofCells (header cells : List String) : Dict.Sorted (Row.ofCells header cells) :=
  Dict.sorted_ofPairs _

/-- A row has a cell in every column of its header. -/
theorem exists_get?_ofCells {header cells : List String} (hlength : cells.length = header.length)
    {c : String} (hc : c ∈ header) :
    ∃ cell, Dict.get? (Row.ofCells header cells) c = some cell := by
  refine Dict.exists_get?_foldl_insert (.inl ?_)
  rw [List.map_fst_zip (Nat.le_of_eq hlength.symm)]
  exact hc

/-- The row that has a cell for every column of a header. -/
theorem get?_ofCells_map (header : List String) (cell : String → String) (c : String) :
    Dict.get? (Row.ofCells header (header.map cell)) c =
      if c ∈ header then some (cell c) else none := by
  have hzip : header.zip (header.map cell) = header.map fun c => (c, cell c) := by
    induction header with
    | nil => rfl
    | cons c cs ih => rw [List.map_cons, List.map_cons, List.zip_cons_cons, ih]
  unfold Row.ofCells
  rw [hzip, Dict.get?_ofPairs_map]

/-- A column that is not repeated has one cell. -/
theorem exists_cell : ∀ {header cells : List String}, header.Nodup →
    cells.length = header.length → ∃ cell : String → String, cells = header.map cell := by
  intro header
  induction header with
  | nil =>
    intro cells _ hlength
    exact ⟨id, List.length_eq_zero_iff.1 hlength⟩
  | cons c cs ih =>
    intro cells hnodup hlength
    cases cells with
    | nil => cases hlength
    | cons x xs =>
      obtain ⟨hc, hcs⟩ := List.nodup_cons.1 hnodup
      obtain ⟨cell, rfl⟩ := ih hcs (Nat.succ.inj hlength)
      refine ⟨fun k => if k = c then x else cell k, ?_⟩
      rw [List.map_cons, if_pos rfl]
      congr 1
      apply List.map_congr_left
      intro k hk
      have hne : k ≠ c := fun h => hc (h ▸ hk)
      rw [if_neg hne]

/-- **The cells of a row can be told from the row.** -/
theorem ofCells_injective {header a b : List String} (hnodup : header.Nodup)
    (ha : a.length = header.length) (hb : b.length = header.length)
    (h : Row.ofCells header a = Row.ofCells header b) : a = b := by
  obtain ⟨cell, rfl⟩ := exists_cell hnodup ha
  obtain ⟨cell', rfl⟩ := exists_cell hnodup hb
  apply List.map_congr_left
  intro c hc
  have hget := congrArg (fun row => Dict.get? row c) h
  simp only [get?_ofCells_map, if_pos hc, Option.some.injEq] at hget
  exact hget

theorem map_ofCells_injective {header : List String} (hnodup : header.Nodup) :
    ∀ {a b : List (List String)}, (∀ cells ∈ a, cells.length = header.length) →
      (∀ cells ∈ b, cells.length = header.length) →
        a.map (Row.ofCells header) = b.map (Row.ofCells header) → a = b := by
  intro a
  induction a with
  | nil =>
    intro b _ _ h
    exact (List.map_eq_nil_iff.1 h.symm).symm
  | cons x a ih =>
    intro b ha hb h
    cases b with
    | nil => cases h
    | cons y b =>
      injection h with hfirst hrest
      obtain ⟨hx, ha⟩ := List.forall_mem_cons.1 ha
      obtain ⟨hy, hb⟩ := List.forall_mem_cons.1 hb
      rw [ofCells_injective hnodup hx hy hfirst, ih ha hb hrest]

end Row

end ReportStore

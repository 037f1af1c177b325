/-
  ReportStore.Dict
  ────────────────
  **STRING-KEYED MAPS IN KEY ORDER.**

  Records, rows, row groups and log fields are all finite maps whose order
  shows in the output: keys come in ascending order of their UTF-8 bytes,
  which for `String` is the order `<`.  A map is kept as the list of its
  entries; `insert` keeps the list strictly ascending, so two maps with the
  same bindings are the same list.

      get? (insert d k v) k' = if k' = k then some v else get? d k'
      Sorted d  →  Sorted (insert d k v)
      Sorted d, Sorted e, the same look-ups  →  d = e
-/

namespace ReportStore

/-- A finite map from strings, as the list of its entries in key order. -/
abbrev Dict (α : Type) := List (String × α)

namespace Dict

variable {α β : Type}

/-! ## §1. Operations. -/

/-- The value bound to a key. -/
def get? : Dict α → String → Option α
  | [], _ => none
  | (k', v) :: rest, k => if k' = k then some v else get? rest k

/-- Binds a key, replacing what it was bound to. -/
def insert : Dict α → String → α → Dict α
  | [], k, v => [(k, v)]
  | (k', v') :: rest, k, v =>
    if k < k' then (k, v) :: (k', v') :: rest
    else if k = k' then (k, v) :: rest
    else (k', v') :: insert rest k v

/-- The map of a list of bindings; of two bindings of one key the later
counts. -/
def ofPairs (pairs : List (String × α)) : Dict α :=
  pairs.foldl (fun d p => Dict.insert d p.1 p.2) []

/-- The keys, ascending. -/
def keys (d : Dict α) : List String := d.map (·.1)

/-- The same keys with each value transformed. -/
def mapValues (f : α → β) (d : Dict α) : Dict β := d.map fun p => (p.1, f p.2)

/-! ## §2. The order invariant. -/

/-- Keys strictly ascend. -/
def Sorted (d : Dict α) : Prop := d.Pairwise fun p q => p.1 < q.1

instance (d : Dict α) : Decidable (Sorted d) :=
  inferInstanceAs (Decidable (List.Pairwise _ _))

theorem insert_ne_nil (d : Dict α) (k : String) (v : α) : Dict.insert d k v ≠ [] := by
  cases d with
  | nil => simp [Dict.insert]
  | cons q rest =>
    simp only [Dict.insert]
    split
    · simp
    · split <;> simp

theorem sorted_nil : Sorted ([] : Dict α) := List.Pairwise.nil

/-- A binding of the extended map is the new one or an old one. -/
theorem mem_insert {d : Dict α} {k : String} {v : α} {p : String × α}
    (h : p ∈ Dict.insert d k v) : p = (k, v) ∨ p ∈ d := by
  induction d with
  | nil => simpa [Dict.insert] using h
  | cons q rest ih =>
    simp only [Dict.insert] at h
    split at h
    · simpa using h
    · split at h
      · rcases List.mem_cons.1 h with h | h
        · exact .inl h
        · exact .inr (List.mem_cons_of_mem _ h)
      · rcases List.mem_cons.1 h with h | h
        · exact .inr (h ▸ List.mem_cons_self ..)
        · exact (ih h).imp_right (List.mem_cons_of_mem _)

theorem sorted_insert {d : Dict α} (h : Sorted d) (k : String) (v : α) :
    Sorted (Dict.insert d k v) := by
  induction d with
  | nil => simp [Dict.insert, Sorted]
  | cons q rest ih =>
    obtain ⟨hq, hrest⟩ := List.pairwise_cons.1 h
    simp only [Dict.insert]
    split
    next hlt =>
      refine List.pairwise_cons.2 ⟨fun p hp => ?_, h⟩
      rcases List.mem_cons.1 hp with rfl | hp
      · exact hlt
      · exact String.lt_trans hlt (hq p hp)
    next hlt =>
      split
      next heq =>
        subst heq
        exact List.pairwise_cons.2 ⟨hq, hrest⟩
      next hne =>
        refine List.pairwise_cons.2 ⟨fun p hp => ?_, ih hrest⟩
        rcases mem_insert hp with rfl | hp
        · exact Std.lt_of_le_of_ne (String.not_lt.1 hlt) (Ne.symm hne)
        · exact hq p hp

/-- Bindings that are added one after the other keep the order. -/
theorem sorted_foldl_insert (pairs : List (String × α)) {d : Dict α} (h : Sorted d) :
    Sorted (pairs.foldl (fun d p => Dict.insert d p.1 p.2) d) :=
  List.foldlRecOn (motive := Sorted) pairs _ h fun _ hd p _ => sorted_insert hd p.1 p.2

theorem sorted_ofPairs (pairs : List (String × α)) : Sorted (ofPairs pairs) :=
  sorted_foldl_insert pairs sorted_nil

/-! ## §3. Look-up. -/

@[simp] theorem get?_nil (k : String) : get? ([] : Dict α) k = none := rfl

/-- Binding a key changes the look-up of that key only. -/
theorem get?_insert (d : Dict α) (k : String) (v : α) (k' : String) :
    get? (Dict.insert d k v) k' = if k' = k then some v else get? d k' := by
  induction d with
  | nil => simp only [Dict.insert, get?, eq_comm]
  | cons q rest ih =>
    simp only [Dict.insert]
    split
    · simp only [get?, eq_comm]
    · split
      next heq => subst heq; simp only [get?, eq_comm]; split <;> simp_all
      next hne =>
        simp only [get?, ih]
        split
        next hq => rw [if_neg fun h : k' = k => hne (h.symm.trans hq.symm)]
        next => rfl

/-! ## §4. One list for each map. -/

/-- A key below all others is not bound. -/
theorem get?_eq_none_of_lt {d : Dict α} {k : String} (h : ∀ p ∈ d, k < p.1) :
    get? d k = none := by
  induction d with
  | nil => rfl
  | cons q rest ih =>
    have hq : q.1 ≠ k := fun heq => String.lt_irrefl k (heq ▸ h q (List.mem_cons_self ..))
    rw [get?, if_neg hq]
    exact ih fun p hp => h p (List.mem_cons_of_mem _ hp)

/-- The first key of a map is bound in every map with the same look-ups, so
it is not below the first key of that map. -/
theorem not_lt_of_get?_eq {k k' : String} {v v' : α} {d e : Dict α}
    (he : Sorted ((k', v') :: e))
    (h : get? ((k, v) :: d) k = get? ((k', v') :: e) k) : ¬ k < k' := by
  intro hlt
  have hnone : get? ((k', v') :: e) k = none := by
    apply get?_eq_none_of_lt
    intro p hp
    rcases List.mem_cons.1 hp with rfl | hp
    · exact hlt
    · exact String.lt_trans hlt ((List.pairwise_cons.1 he).1 p hp)
  rw [hnone] at h
  simp [get?] at h

/-- Sorted maps with the same look-ups are the same list. -/
theorem eq_of_get? {d e : Dict α} (hd : Sorted d) (he : Sorted e)
    (h : ∀ k, get? d k = get? e k) : d = e := by
  induction d generalizing e with
  | nil =>
    cases e with
    | nil => rfl
    | cons q rest => exact absurd (h q.1) (by simp [get?])
  | cons p d ih =>
    cases e with
    | nil => exact absurd (h p.1) (by simp [get?])
    | cons q e =>
      obtain ⟨k, v⟩ := p
      obtain ⟨k', v'⟩ := q
      -- The least keys agree, and so do the values they are bound to.
      have hkk : k = k' :=
        String.le_antisymm
          (String.not_lt.1 (not_lt_of_get?_eq hd (h k').symm))
          (String.not_lt.1 (not_lt_of_get?_eq he (h k)))
      subst hkk
      have hv : v = v' := by simpa [get?] using h k
      subst hv
      obtain ⟨hkd, hsd⟩ := List.pairwise_cons.1 hd
      obtain ⟨hke, hse⟩ := List.pairwise_cons.1 he
      -- Below the least key the rest of each map answers alone.
      have hrest : ∀ x, get? d x = get? e x := by
        intro x
        by_cases hx : k = x
        · subst hx
          rw [get?_eq_none_of_lt hkd, get?_eq_none_of_lt hke]
        · simpa [get?, hx] using h x
      rw [ih hsd hse hrest]

end Dict

end ReportStore

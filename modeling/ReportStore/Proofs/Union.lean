/-
  ReportStore.Proofs.Union
  ────────────────────────
  **UNIONS OF RECORDS, KEY BY KEY.**

  A record is known by its look-ups, and the look-up of a union is that of
  its parts, the newer over the older:

      get? (union r s) k  =  what s has at k, over what r has at k

  So scalars of one record replace those of another, while maps with
  different keys come together.  A nested record can be taken apart into its
  leaves, each below a path of keys of its own, and is put together again by
  the union of the leaves in any order; only the branches without a leaf are
  gone.
-/
import Mathlib.Data.List.Basic
import ReportStore.Value.Union
import ReportStore.Proofs.Columns

namespace ReportStore

/-! ## §1. Maps with some values left out. -/

namespace Dict

variable {α β : Type}

/-- The values that a function keeps, transformed by it. -/
def filterMapValues (f : α → Option β) (d : Dict α) : Dict β :=
  d.filterMap fun p => (f p.2).map (p.1, ·)

theorem sorted_filterMapValues (f : α → Option β) {d : Dict α} (h : Sorted d) :
    Sorted (filterMapValues f d) := by
  unfold Sorted filterMapValues
  rw [List.pairwise_filterMap]
  refine h.imp ?_
  intro p q hlt p' hp' q' hq'
  obtain ⟨_, -, rfl⟩ := Option.map_eq_some_iff.1 hp'
  obtain ⟨_, -, rfl⟩ := Option.map_eq_some_iff.1 hq'
  exact hlt

theorem get?_filterMapValues (f : α → Option β) {d : Dict α} (h : Sorted d) (k : String) :
    get? (filterMapValues f d) k = (get? d k).bind f := by
  induction d with
  | nil => rfl
  | cons p rest ih =>
    obtain ⟨k', v⟩ := p
    obtain ⟨hlt, hrest⟩ := List.pairwise_cons.1 h
    have htail := ih hrest
    unfold filterMapValues at htail ⊢
    rw [List.filterMap_cons, get?]
    by_cases hk : k' = k
    · subst hk
      -- No entry after this one has its key.
      rw [get?_eq_none_of_lt (d := rest) hlt] at htail
      rw [if_pos rfl]
      cases hf : f v with
      | none => simpa [hf] using htail
      | some w => simp [hf, get?]
    · rw [if_neg hk, ← htail]
      cases hf : f v with
      | none => simp
      | some w => simp [get?, hk]

end Dict

/-! ## §2. Records in key order. -/

mutual

/-- Whether the maps of a value are in key order, at every depth. -/
def Value.isOrdered : Value → Bool
  | .map entries => decide (Dict.Sorted entries) && Record.areOrdered entries
  | .int _ | .float _ | .text _ => true

/-- Whether the maps of all values of some entries are in key order. -/
def Record.areOrdered : List (String × Value) → Bool
  | [] => true
  | (_, v) :: rest => Value.isOrdered v && Record.areOrdered rest

end

namespace Record

/-- A record that is a map at every depth: no key is bound twice, and the
keys are in order. -/
def Ordered (r : Record) : Prop := Value.isOrdered (.map r) = true

instance (r : Record) : Decidable (Ordered r) := inferInstanceAs (Decidable (_ = true))

variable {r s : Record} {k : String} {v : Value}

theorem Ordered.sorted (h : Ordered r) : Dict.Sorted r := by
  simp only [Ordered, Value.isOrdered, Bool.and_eq_true, decide_eq_true_eq] at h
  exact h.1

/-- A map that a record holds is in key order. -/
theorem Ordered.of_mem (h : Ordered r) {m : Record} (hm : (k, .map m) ∈ r) : Ordered m := by
  have hall : ∀ {entries : Record}, areOrdered entries = true → (k, .map m) ∈ entries →
      Ordered m := by
    intro entries
    induction entries with
    | nil => exact fun _ hmem => nomatch hmem
    | cons p rest ih =>
      intro hentries hmem
      rw [areOrdered, Bool.and_eq_true] at hentries
      rcases List.mem_cons.1 hmem with rfl | hmem
      · exact hentries.1
      · exact ih hentries.2 hmem
  simp only [Ordered, Value.isOrdered, Bool.and_eq_true, decide_eq_true_eq] at h
  exact hall h.2 hm

end Record

/-! ## §3. Look-up in a union. -/

namespace Value

@[simp] theorem over_none (v : Value) : Value.over none v = v := by
  cases v <;> simp [Value.over]

/-- What some values come to at one key, the last one the newest. -/
def overAll (vs : List Value) : Option Value := vs.foldl (fun old v => some (Value.over old v)) none

/-- Of scalars the last one counts. -/
theorem overAll_of_scalars {vs : List Value} (h : ∀ v ∈ vs, v.isScalar = true) :
    overAll vs = vs.getLast? := by
  have hall : ∀ {vs : List Value} (old : Option Value), (∀ v ∈ vs, v.isScalar = true) →
      vs.foldl (fun old v => some (Value.over old v)) old = vs.getLast?.or old := by
    intro vs
    induction vs with
    | nil => exact fun old _ => rfl
    | cons v rest ih =>
      intro old hvs
      obtain ⟨hv, hrest⟩ := List.forall_mem_cons.1 hvs
      rw [List.foldl_cons, over_of_isScalar old hv, ih _ hrest]
      cases rest with
      | nil => rfl
      | cons w later => simp [List.getLast?_cons]
  rw [overAll, hall none h, Option.or_none]

end Value

namespace Record

variable {r s : Record}

/-- **The look-up of a union**: what the newer record has, over what the older
one has. -/
theorem get?_union (r : Record) (hs : Dict.Sorted s) (k : String) :
    Dict.get? (union r s) k =
      match Dict.get? s k with
      | none => Dict.get? r k
      | some v => some (Value.over (Dict.get? r k) v) := by
  induction s generalizing r with
  | nil => rw [union_nil, Dict.get?_nil]
  | cons p rest ih =>
    obtain ⟨k', v⟩ := p
    obtain ⟨hlt, hrest⟩ := List.pairwise_cons.1 hs
    rw [union_cons, ih _ hrest, Dict.get?_insert, Dict.get?]
    by_cases hk : k' = k
    · subst hk
      rw [Dict.get?_eq_none_of_lt (d := rest) hlt]
      simp
    · rw [if_neg hk, if_neg (Ne.symm hk)]

theorem sorted_unionAll (rs : List Record) : Dict.Sorted (unionAll rs) := by
  have hall : ∀ {rs : List Record} {r : Record}, Dict.Sorted r →
      Dict.Sorted (rs.foldl union r) := by
    intro rs
    induction rs with
    | nil => exact fun h => h
    | cons s rest ih => exact fun h => ih (sorted_union h s)
  exact hall Dict.sorted_nil

/-- **The look-up of the union of many records**: what they have at the key,
one over the other. -/
theorem get?_unionAll {rs : List Record} (h : ∀ s ∈ rs, Dict.Sorted s) (k : String) :
    Dict.get? (unionAll rs) k = Value.overAll (rs.filterMap (Dict.get? · k)) := by
  have hall : ∀ {rs : List Record} (r : Record), (∀ s ∈ rs, Dict.Sorted s) →
      Dict.get? (rs.foldl union r) k =
        (rs.filterMap (Dict.get? · k)).foldl (fun old v => some (Value.over old v))
          (Dict.get? r k) := by
    intro rs
    induction rs with
    | nil => exact fun _ _ => rfl
    | cons s rest ih =>
      intro r hrs
      obtain ⟨hs, hrest⟩ := List.forall_mem_cons.1 hrs
      rw [List.foldl_cons, ih _ hrest, get?_union r hs, List.filterMap_cons]
      cases hget : Dict.get? s k with
      | none => simp
      | some v => simp
  exact hall [] h

theorem unionAll_singleton (hr : Dict.Sorted r) : unionAll [r] = r := by
  refine Dict.eq_of_get? (sorted_unionAll _) hr ?_
  intro k
  rw [get?_unionAll (by simpa using hr)]
  cases hget : Dict.get? r k with
  | none => simp [hget, Value.overAll]
  | some v => simp [hget, Value.overAll]

/-- Maps at one key come together. -/
theorem overAll_maps {ms : List Record} (hne : ms ≠ []) (h : ∀ m ∈ ms, Dict.Sorted m) :
    Value.overAll (ms.map .map) = some (.map (unionAll ms)) := by
  have hall : ∀ (ms : List Record) (r : Record),
      (ms.map Value.map).foldl (fun old v => some (Value.over old v)) (some (.map r)) =
        some (.map (ms.foldl union r)) := by
    intro ms
    induction ms with
    | nil => exact fun _ => rfl
    | cons m rest ih =>
      intro r
      rw [List.map_cons, List.foldl_cons, List.foldl_cons, ← ih]
      simp [Value.over]
  obtain ⟨m, rest, rfl⟩ := List.exists_cons_of_ne_nil hne
  have hm := unionAll_singleton (h m List.mem_cons_self)
  unfold Value.overAll
  rw [List.map_cons, List.foldl_cons, Value.over_none, hall]
  show some (Value.map (rest.foldl union m)) = some (.map (rest.foldl union (union [] m)))
  rw [show union [] m = m from hm]

/-- Records of scalars are united by binding their fields in order. -/
theorem unionAll_of_scalars {rs : List Record} (h : ∀ s ∈ rs, ∀ p ∈ s, p.2.isScalar = true) :
    unionAll rs = Dict.ofPairs rs.flatten := by
  have hone : ∀ {s : Record} (r : Record), (∀ p ∈ s, p.2.isScalar = true) →
      union r s = s.foldl (fun d p => Dict.insert d p.1 p.2) r := by
    intro s
    induction s with
    | nil => exact fun r _ => union_nil r
    | cons p rest ih =>
      intro r hs
      obtain ⟨hp, hrest⟩ := List.forall_mem_cons.1 hs
      rw [union_cons, Value.over_of_isScalar _ hp, ih _ hrest, List.foldl_cons]
  have hall : ∀ {rs : List Record} (r : Record), (∀ s ∈ rs, ∀ p ∈ s, p.2.isScalar = true) →
      rs.foldl union r = rs.flatten.foldl (fun d p => Dict.insert d p.1 p.2) r := by
    intro rs
    induction rs with
    | nil => exact fun _ _ => rfl
    | cons s rest ih =>
      intro r hrs
      obtain ⟨hs, hrest⟩ := List.forall_mem_cons.1 hrs
      rw [List.foldl_cons, hone r hs, ih _ hrest, List.flatten_cons, List.foldl_append]
  exact hall [] h

/-- **Records that differ in one map only** are united there. -/
theorem unionAll_insert_map {head : Record} {field : String} {ms : List Record}
    (hhead : Dict.Sorted head) (hscalars : ∀ k v, Dict.get? head k = some v → v.isScalar = true)
    (hne : ms ≠ []) (hms : ∀ m ∈ ms, Dict.Sorted m) :
    unionAll (ms.map fun m => Dict.insert head field (.map m)) =
      Dict.insert head field (.map (unionAll ms)) := by
  refine Dict.eq_of_get? (sorted_unionAll _) (Dict.sorted_insert hhead _ _) ?_
  intro k
  rw [get?_unionAll, Dict.get?_insert, List.filterMap_map]
  · by_cases hk : k = field
    · subst hk
      have hvalues : ms.filterMap ((Dict.get? · k) ∘ fun m => Dict.insert head k (.map m)) =
          ms.map .map := by
        rw [← List.filterMap_eq_map]
        congr 1
        funext m
        simp [Dict.get?_insert]
      rw [hvalues, if_pos rfl, overAll_maps hne hms]
    · have hvalues : ms.filterMap ((Dict.get? · k) ∘ fun m => Dict.insert head field (.map m)) =
          ms.filterMap fun _ => Dict.get? head k := by
        congr 1
        funext m
        simp [Dict.get?_insert, hk]
      rw [hvalues, if_neg hk]
      cases hget : Dict.get? head k with
      | none =>
        rw [List.filterMap_eq_nil_iff.2 fun _ _ => rfl]
        rfl
      | some v =>
        -- The same scalar again and again.
        have hsame : ms.filterMap (fun _ => some v) = List.replicate ms.length v := by
          rw [← List.map_const', ← List.filterMap_eq_map]
          rfl
        rw [hsame, Value.overAll_of_scalars]
        · simp [List.getLast?_replicate, hne]
        · intro w hw
          rw [(List.mem_replicate.1 hw).2]
          exact hscalars k v hget
  · intro s hs
    obtain ⟨m, -, rfl⟩ := List.mem_map.1 hs
    exact Dict.sorted_insert hhead _ _

end Record

/-! ## §4. The leaves of a nested record. -/

theorem Value.map?_eq_some_iff {v : Value} {m : Record} : v.map? = some m ↔ v = .map m := by
  cases v <;> simp [map?]

namespace Record

/-- The records below some levels of keys, each with the keys above it. -/
def leaves : (depth : Nat) → Record → List (List String × Record)
  | 0, r => [([], r)]
  | depth + 1, r => r.flatMap fun p =>
    p.2.map?.elim [] fun m => (leaves depth m).map fun leaf => (p.1 :: leaf.1, leaf.2)

/-- A record below some keys, and nothing beside it. -/
def nest : List String → Record → Record
  | [], leaf => leaf
  | k :: path, leaf => [(k, .map (nest path leaf))]

/-- A nested record with its leaves transformed, and without the branches that
have no leaf. -/
def pruned (f : Record → Record) : (depth : Nat) → Record → Record
  | 0, r => f r
  | depth + 1, r => r |> Dict.filterMapValues fun v =>
    v.map?.bind fun m => if leaves depth m = [] then none else some (.map (pruned f depth m))

/-- What leaves have below a key, that key removed. -/
def strip (k : String) (ls : List (List String × Record)) : List (List String × Record) :=
  ls.filterMap fun leaf =>
    match leaf.1 with
    | k' :: path => if k' = k then some (path, leaf.2) else none
    | [] => none

/-- A record whose first levels hold maps only. -/
def Nested : (depth : Nat) → Record → Prop
  | 0, _ => True
  | depth + 1, r => ∀ p ∈ r, ∃ m, p.2 = .map m ∧ Nested depth m

variable {depth : Nat} {r m : Record} {k : String} {f : Record → Record}

theorem at?_cons_cons (r : Record) (k k' : String) (path : List String) :
    at? r (k :: k' :: path) =
      ((Dict.get? r k).bind Value.map?).bind fun m => at? m (k' :: path) := by
  rw [at?]
  · cases Dict.get? r k with
    | none => rfl
    | some v => cases v <;> rfl
  · simp

/-- A path can be gone in two steps. -/
theorem at?_append {q : List String} (hq : q ≠ []) : ∀ {p : List String} {r : Record}, p ≠ [] →
    at? r (p ++ q) = ((at? r p).bind Value.map?).bind fun m => at? m q := by
  intro p
  induction p with
  | nil => exact fun hp => absurd rfl hp
  | cons k p ih =>
    intro r _
    cases p with
    | nil =>
      obtain ⟨k', rest, rfl⟩ := List.exists_cons_of_ne_nil hq
      exact at?_cons_cons r k k' rest
    | cons k' p =>
      rw [List.cons_append, List.cons_append, at?_cons_cons, at?_cons_cons]
      cases (Dict.get? r k).bind Value.map? with
      | none => rfl
      | some m => exact ih (by simp)

theorem mem_leaves_succ {leaf : List String × Record} :
    leaf ∈ leaves (depth + 1) r ↔
      ∃ k m path, (k, .map m) ∈ r ∧ (path, leaf.2) ∈ leaves depth m ∧ leaf.1 = k :: path := by
  rw [leaves, List.mem_flatMap]
  constructor
  · rintro ⟨⟨k, v⟩, hp, hleaf⟩
    cases hv : v.map? with
    | none => simp [hv] at hleaf
    | some m =>
      simp only [hv, Option.elim_some, List.mem_map] at hleaf
      obtain ⟨below, hbelow, rfl⟩ := hleaf
      rw [Value.map?_eq_some_iff.1 hv] at hp
      exact ⟨k, m, below.1, hp, hbelow, rfl⟩
  · rintro ⟨k, m, path, hp, hbelow, hpath⟩
    refine ⟨(k, .map m), hp, List.mem_map.2 ⟨(path, leaf.2), hbelow, ?_⟩⟩
    rw [← hpath]

/-- Each leaf stands below keys of its own. -/
theorem nodup_leaves : ∀ {depth : Nat} {r : Record}, Ordered r →
    ((leaves depth r).map (·.1)).Nodup := by
  intro depth
  induction depth with
  | zero => exact fun _ => by simp [leaves]
  | succ depth ih =>
    intro r hr
    rw [leaves, List.map_flatMap]
    unfold List.Nodup
    rw [List.pairwise_flatMap]
    constructor
    · rintro ⟨k, v⟩ hp
      cases hv : v.map? with
      | none => simp
      | some m =>
        rw [Value.map?_eq_some_iff.1 hv] at hp
        simp only [Option.elim_some, List.map_map]
        refine List.pairwise_map.2 ((List.pairwise_map.1 (ih (hr.of_mem hp))).imp ?_)
        intro a b hne heq
        injection heq with _ heq
        exact hne heq
    · refine hr.sorted.imp ?_
      -- The leaves of two entries differ in their first key.
      have hfirst : ∀ {p : String × Value} {path : List String},
          path ∈ (p.2.map?.elim [] fun m =>
            (leaves depth m).map fun leaf => (p.1 :: leaf.1, leaf.2)).map Prod.fst →
            path.head? = some p.1 := by
        rintro ⟨k, v⟩ path hpath
        cases hv : v.map? with
        | none => simp [hv] at hpath
        | some m =>
          simp only [hv, Option.elim_some, List.map_map, List.mem_map] at hpath
          obtain ⟨leaf, -, rfl⟩ := hpath
          rfl
      rintro p q hlt a ha b hb rfl
      have heq := (hfirst ha).symm.trans (hfirst hb)
      injection heq with heq
      exact String.lt_irrefl _ (heq ▸ hlt)

/-- **A leaf is what stands at a path of keys.** -/
theorem mem_leaves_iff : ∀ {depth : Nat} {r : Record}, Ordered r →
    ∀ {path : List String} {leaf : Record}, (path, leaf) ∈ leaves (depth + 1) r ↔
      path.length = depth + 1 ∧ at? r path = some (.map leaf) := by
  intro depth
  induction depth with
  | zero =>
    intro r hr path leaf
    rw [mem_leaves_succ]
    constructor
    · rintro ⟨k, m, path', hm, hleaf, rfl⟩
      simp only [leaves, List.mem_singleton, Prod.mk.injEq] at hleaf
      obtain ⟨rfl, rfl⟩ := hleaf
      exact ⟨rfl, (Dict.mem_iff_get? hr.sorted).1 hm⟩
    · rintro ⟨hlength, hat⟩
      obtain ⟨k, rfl⟩ := List.length_eq_one_iff.1 hlength
      exact ⟨k, leaf, [], (Dict.mem_iff_get? hr.sorted).2 hat, by simp [leaves], rfl⟩
  | succ depth ih =>
    intro r hr path leaf
    rw [mem_leaves_succ]
    constructor
    · rintro ⟨k, m, path', hm, hleaf, rfl⟩
      obtain ⟨hlength, hat⟩ := (ih (hr.of_mem hm)).1 hleaf
      obtain ⟨k', rest, rfl⟩ := List.exists_cons_of_length_eq_add_one hlength
      refine ⟨by simp [hlength], ?_⟩
      rw [at?_cons_cons, (Dict.mem_iff_get? hr.sorted).1 hm]
      exact hat
    · rintro ⟨hlength, hat⟩
      obtain ⟨k, rest, rfl⟩ := List.exists_cons_of_length_eq_add_one hlength
      have hrest : rest.length = depth + 1 := by simpa using hlength
      obtain ⟨k', rest', rfl⟩ := List.exists_cons_of_length_eq_add_one hrest
      rw [at?_cons_cons, Option.bind_eq_some_iff] at hat
      obtain ⟨m, hm, hat⟩ := hat
      obtain ⟨v, hget, hv⟩ := Option.bind_eq_some_iff.1 hm
      rw [Value.map?_eq_some_iff.1 hv] at hget
      have hmem := (Dict.mem_iff_get? hr.sorted).2 hget
      exact ⟨k, m, _, hmem, (ih (hr.of_mem hmem)).2 ⟨hrest, hat⟩, rfl⟩

/-- Within the levels of a nested record there are only maps. -/
theorem Nested.at?_map : ∀ {depth : Nat} {r : Record}, Nested depth r → Ordered r →
    ∀ {path : List String} {v : Value}, path.length ≤ depth → at? r path = some v →
      ∃ m, v = .map m := by
  intro depth
  induction depth with
  | zero =>
    intro r _ _ path v hlength hat
    obtain rfl := List.length_eq_zero_iff.1 (Nat.le_zero.1 hlength)
    cases hat
  | succ depth ih =>
    intro r hr hordered path v hlength hat
    match path, hlength, hat with
    | [k], _, hat =>
      obtain ⟨m, hm, -⟩ := hr _ ((Dict.mem_iff_get? hordered.sorted).2 hat)
      exact ⟨m, hm⟩
    | k :: k' :: path, hlength, hat =>
      rw [at?_cons_cons, Option.bind_eq_some_iff] at hat
      obtain ⟨m, hm, hat⟩ := hat
      obtain ⟨v', hget, hv⟩ := Option.bind_eq_some_iff.1 hm
      rw [Value.map?_eq_some_iff.1 hv] at hget
      have hmem := (Dict.mem_iff_get? hordered.sorted).2 hget
      obtain ⟨m', hm', hnested⟩ := hr _ hmem
      injection hm' with hm'
      subst hm'
      exact ih hnested (hordered.of_mem hmem) (by simpa using hlength) hat

theorem mem_strip {ls : List (List String × Record)} {path : List String} {leaf : Record} :
    (path, leaf) ∈ strip k ls ↔ (k :: path, leaf) ∈ ls := by
  unfold strip
  rw [List.mem_filterMap]
  constructor
  · rintro ⟨⟨_ | ⟨k', path'⟩, leaf'⟩, hmem, hsome⟩
    · cases hsome
    · by_cases hk : k' = k
      · simp only [hk, if_true, Option.some.injEq, Prod.mk.injEq] at hsome
        obtain ⟨rfl, rfl⟩ := hsome
        exact hk ▸ hmem
      · simp [hk] at hsome
  · intro hmem
    exact ⟨_, hmem, by simp⟩

theorem nodup_strip {ls : List (List String × Record)} (h : ls.Nodup) : (strip k ls).Nodup := by
  unfold strip List.Nodup
  rw [List.pairwise_filterMap]
  refine h.imp ?_
  rintro ⟨_ | ⟨a, p⟩, x⟩ ⟨_ | ⟨b, q⟩, y⟩ hne z hz w hw
  · cases hz
  · cases hz
  · cases hw
  · by_cases ha : a = k
    · by_cases hb : b = k
      · simp only [ha, hb, if_true, Option.some.injEq] at hz hw
        subst hz hw
        rintro heq
        rw [Prod.mk.injEq] at heq
        exact hne (by rw [ha, hb, heq.1, heq.2])
      · simp [hb] at hw
    · simp [ha] at hz

theorem sorted_nest (path : List String) {leaf : Record} (h : Dict.Sorted leaf) :
    Dict.Sorted (nest path leaf) := by
  cases path with
  | nil => exact h
  | cons k path => simp [nest, Dict.Sorted]

theorem ordered_of_mem_leaves : ∀ {depth : Nat} {r : Record} {leaf : List String × Record},
    Ordered r → leaf ∈ leaves depth r → Ordered leaf.2 := by
  intro depth
  induction depth with
  | zero =>
    intro r leaf hr hleaf
    obtain rfl := List.mem_singleton.1 hleaf
    exact hr
  | succ depth ih =>
    intro r leaf hr hleaf
    obtain ⟨k, m, path, hm, hbelow, -⟩ := mem_leaves_succ.1 hleaf
    have hordered : Ordered (path, leaf.2).2 := ih (hr.of_mem hm) hbelow
    exact hordered

/-! ## §5. A record is the union of its leaves. -/

theorem sorted_pruned (hf : ∀ leaf, Ordered leaf → Dict.Sorted (f leaf)) (hr : Ordered r) :
    Dict.Sorted (pruned f depth r) := by
  cases depth with
  | zero => exact hf r hr
  | succ depth => exact Dict.sorted_filterMapValues _ hr.sorted

/-- What a pruned record has at a key. -/
theorem get?_pruned (f : Record → Record) (depth : Nat) (hr : Ordered r) (k : String) :
    Dict.get? (pruned f (depth + 1) r) k =
      ((Dict.get? r k).bind Value.map?).bind fun m =>
        if leaves depth m = [] then none else some (.map (pruned f depth m)) := by
  rw [Option.bind_assoc]
  exact Dict.get?_filterMapValues _ hr.sorted k

/-- **What a pruned record has below the path of a leaf** is what becomes of the
leaf. -/
theorem at?_pruned {q : List String} (hq : q ≠ []) : ∀ {depth : Nat} {r : Record}
    {path : List String} {leaf : Record}, Ordered r → (path, leaf) ∈ leaves depth r →
      at? (pruned f depth r) (path ++ q) = at? (f leaf) q := by
  intro depth
  induction depth with
  | zero =>
    intro r path leaf _ hleaf
    simp only [leaves, List.mem_singleton, Prod.mk.injEq] at hleaf
    obtain ⟨rfl, rfl⟩ := hleaf
    rfl
  | succ depth ih =>
    intro r path leaf hr hleaf
    obtain ⟨k, m, path', hm, hbelow, hpath⟩ := mem_leaves_succ.1 hleaf
    obtain rfl : path = k :: path' := hpath
    have hlater := ih (hr.of_mem hm) hbelow
    obtain ⟨k', rest, hrest⟩ :=
      List.exists_cons_of_ne_nil (List.append_ne_nil_of_right_ne_nil path' hq)
    rw [List.cons_append, hrest, at?_cons_cons, get?_pruned f depth hr,
      (Dict.mem_iff_get? hr.sorted).1 hm, ← hrest, ← hlater]
    simp [Value.map?, List.ne_nil_of_mem hbelow]

/-- What nested leaves have at a key: the leaves below it, nested. -/
theorem filterMap_get?_nest {ls : List (List String × Record)}
    (hkeys : ∀ leaf ∈ ls, leaf.1 ≠ []) (f : Record → Record) (k : String) :
    (ls.map fun leaf => nest leaf.1 (f leaf.2)).filterMap (Dict.get? · k) =
      ((strip k ls).map fun leaf => nest leaf.1 (f leaf.2)).map .map := by
  unfold strip
  rw [List.filterMap_map, List.map_map, List.map_filterMap]
  apply List.filterMap_congr
  intro leaf hleaf
  obtain ⟨k', path, hpath⟩ := List.exists_cons_of_ne_nil (hkeys leaf hleaf)
  by_cases hk : k' = k
  · simp [hpath, nest, Dict.get?, hk]
  · simp [hpath, nest, Dict.get?, hk]

/-- The leaves below a key are those of the map that stands at it. -/
theorem mem_strip_of_mem_leaves {ls : List (List String × Record)} (hr : Ordered r)
    (hmem : ∀ leaf, leaf ∈ ls ↔ leaf ∈ leaves (depth + 1) r) {leaf : List String × Record} :
    leaf ∈ strip k ls ↔
      ∃ m, (Dict.get? r k).bind Value.map? = some m ∧ leaf ∈ leaves depth m := by
  obtain ⟨path, leaf⟩ := leaf
  rw [mem_strip, hmem, mem_leaves_succ]
  constructor
  · rintro ⟨k', m, path', hm, hbelow, hpath⟩
    injection hpath with hk hpath
    subst hk hpath
    exact ⟨m, by rw [(Dict.mem_iff_get? hr.sorted).1 hm]; rfl, hbelow⟩
  · rintro ⟨m, hm, hbelow⟩
    obtain ⟨v, hget, hv⟩ := Option.bind_eq_some_iff.1 hm
    rw [Value.map?_eq_some_iff.1 hv] at hget
    exact ⟨k, m, path, (Dict.mem_iff_get? hr.sorted).2 hget, hbelow, rfl⟩

/-- A list without repetition that has one element is that element. -/
theorem eq_singleton_of_nodup {α : Type} {xs : List α} {x : α} (hnodup : xs.Nodup)
    (h : ∀ y, y ∈ xs ↔ y = x) : xs = [x] := by
  cases xs with
  | nil => exact absurd ((h x).2 rfl) (by simp)
  | cons y rest =>
    obtain rfl := (h y).1 List.mem_cons_self
    cases rest with
    | nil => rfl
    | cons z rest =>
      obtain rfl := (h z).1 (List.mem_cons_of_mem _ List.mem_cons_self)
      simp at hnodup

theorem sorted_of_mem_nests {ls : List (List String × Record)}
    (hf : ∀ leaf, Ordered leaf → Dict.Sorted (f leaf)) (hr : Ordered r)
    (hmem : ∀ leaf ∈ ls, leaf ∈ leaves depth r) :
    ∀ s ∈ ls.map fun leaf => nest leaf.1 (f leaf.2), Dict.Sorted s := by
  intro s hs
  obtain ⟨leaf, hleaf, rfl⟩ := List.mem_map.1 hs
  exact sorted_nest _ (hf _ (ordered_of_mem_leaves hr (hmem leaf hleaf)))

/-- Where no leaf lies below a key, a pruned record has nothing at it. -/
theorem get?_pruned_of_no_leaf (hr : Ordered r)
    (h : ∀ m, (Dict.get? r k).bind Value.map? = some m → leaves depth m = []) :
    Dict.get? (pruned f (depth + 1) r) k = none := by
  rw [get?_pruned f depth hr]
  cases hbelow : (Dict.get? r k).bind Value.map? with
  | none => rfl
  | some m => rw [Option.bind_some, if_pos (h m hbelow)]

/-- **A nested record is the union of its leaves**, in whatever order they come,
but for the branches that have none. -/
theorem unionAll_nest (hf : ∀ leaf, Ordered leaf → Dict.Sorted (f leaf)) :
    ∀ {depth : Nat} {r : Record} {ls : List (List String × Record)}, Ordered r → ls.Nodup →
      (∀ leaf, leaf ∈ ls ↔ leaf ∈ leaves depth r) →
        unionAll (ls.map fun leaf => nest leaf.1 (f leaf.2)) = pruned f depth r := by
  intro depth
  induction depth with
  | zero =>
    intro r ls hr hnodup hmem
    obtain rfl : ls = [([], r)] := eq_singleton_of_nodup hnodup (by simpa [leaves] using hmem)
    exact unionAll_singleton (hf r hr)
  | succ depth ih =>
    intro r ls hr hnodup hmem
    have hsorted := sorted_of_mem_nests hf hr fun leaf => (hmem leaf).1
    have hkeys : ∀ leaf ∈ ls, leaf.1 ≠ [] := by
      intro leaf hleaf
      obtain ⟨k, m, path, -, -, hpath⟩ := mem_leaves_succ.1 ((hmem leaf).1 hleaf)
      simp [hpath]
    refine Dict.eq_of_get? (sorted_unionAll _) (sorted_pruned hf hr) ?_
    intro k
    rw [get?_unionAll hsorted, filterMap_get?_nest hkeys]
    have hstrip : ∀ leaf, leaf ∈ strip k ls ↔
        ∃ m, (Dict.get? r k).bind Value.map? = some m ∧ leaf ∈ leaves depth m :=
      fun _ => mem_strip_of_mem_leaves hr hmem
    by_cases hnil : strip k ls = []
    · rw [hnil, get?_pruned_of_no_leaf hr]
      · rfl
      · intro m hm
        refine List.eq_nil_iff_forall_not_mem.2 fun leaf hleaf => ?_
        have hin := (hstrip leaf).2 ⟨m, hm, hleaf⟩
        rw [hnil] at hin
        cases hin
    · obtain ⟨leaf, hleaf⟩ := List.exists_mem_of_ne_nil _ hnil
      obtain ⟨m, hbelow, hin⟩ := (hstrip leaf).1 hleaf
      have hstrip' : ∀ leaf, leaf ∈ strip k ls ↔ leaf ∈ leaves depth m := by
        intro leaf
        rw [hstrip, hbelow]
        simp
      obtain ⟨v, hget, hv⟩ := Option.bind_eq_some_iff.1 hbelow
      rw [Value.map?_eq_some_iff.1 hv] at hget
      have hordered : Ordered m := hr.of_mem ((Dict.mem_iff_get? hr.sorted).2 hget)
      rw [get?_pruned f depth hr, hbelow, Option.bind_some, if_neg (List.ne_nil_of_mem hin),
        overAll_maps, ih hordered (nodup_strip hnodup) hstrip']
      · simpa using hnil
      · exact sorted_of_mem_nests hf hordered fun leaf => (hstrip' leaf).1

end Record

end ReportStore

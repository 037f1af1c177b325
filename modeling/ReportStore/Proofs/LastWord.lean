/-
  ReportStore.Proofs.LastWord
  ───────────────────────────
  **AT EVERY PATH THE LAST RECORD THAT SAYS SOMETHING COUNTS.**

  The union of records is neither commutative nor associative, but it can be
  read path by path.  At a path a record says that there is a scalar or a
  map, or that nothing can be there since a scalar stands above, or it says
  nothing at all.  What the union of some records has at a path is what the
  last of them that says something there says:

      found (union of r and rs) path  =  the last word of rs at the path,
                                         and what r has there if there is none

  A record in key order is known by what is found at its paths.  So records
  can be united a second time without a change, and blocks of records that
  agree wherever two of them say something can be united in any order.
-/
import ReportStore.Proofs.Union

namespace ReportStore

/-! ## §1. What stands at a path. -/

/-- What stands at a path, the inside of a map left out. -/
inductive Mark where
  | scalar (v : Value)
  | map

/-- The mark of a value. -/
def Value.mark (v : Value) : Mark := if v.isScalar then .scalar v else .map

@[simp] theorem Value.mark_map (m : Record) : (Value.map m).mark = .map := rfl

theorem Value.isScalar_of_map?_none {v : Value} (h : v.map? = none) : v.isScalar = true := by
  cases v with
  | map m => cases h
  | int _ | float _ | text _ => rfl

/-- Values of one mark are equal, unless both are maps. -/
theorem Value.eq_or_map_of_mark_eq {v w : Value} (h : v.mark = w.mark) :
    v = w ∨ ∃ m m', v = .map m ∧ w = .map m' := by
  unfold mark at h
  cases hv : v.map? with
  | some m =>
    cases hw : w.map? with
    | some m' => exact .inr ⟨m, m', map?_eq_some_iff.1 hv, map?_eq_some_iff.1 hw⟩
    | none =>
      rw [map?_eq_some_iff.1 hv, isScalar_of_map?_none hw] at h
      cases h
  | none =>
    rw [isScalar_of_map?_none hv, if_pos rfl] at h
    split at h
    · injection h with h
      exact .inl h
    · cases h

namespace Record

/-- What is found at a path. -/
def found (r : Record) (path : List String) : Option Mark := (at? r path).map Value.mark

/-- What a record says about a path: `none` if it says nothing, and `some none`
if a scalar stands above, so that nothing can be there. -/
def word (r : Record) : List String → Option (Option Mark)
  | [] => none
  | [k] => (Dict.get? r k).map fun v => some v.mark
  | k :: path =>
    (Dict.get? r k).bind fun v =>
      match v.map? with
      | some m => word m path
      | none => some none

variable {r s : Record} {k k' : String} {path : List String}

theorem word_cons_cons (r : Record) (k k' : String) (path : List String) :
    word r (k :: k' :: path) =
      (Dict.get? r k).bind fun v =>
        match v.map? with
        | some m => word m (k' :: path)
        | none => some none := by
  rw [word]
  simp

theorem found_singleton (r : Record) (k : String) :
    found r [k] = (Dict.get? r k).map Value.mark := rfl

theorem found_cons_cons (r : Record) (k k' : String) (path : List String) :
    found r (k :: k' :: path) =
      ((Dict.get? r k).bind Value.map?).bind fun m => found m (k' :: path) := by
  unfold found
  rw [at?_cons_cons, Option.map_bind]
  rfl

end Record

/-! ## §2. The union, path by path. -/

/-- A map in place of whatever was there: the union with the map that was
there, if one was. -/
theorem Value.over_map (old : Option Value) {m : Record} (hm : Dict.Sorted m) :
    Value.over old (.map m) = .map (Record.union ((old.bind Value.map?).getD []) m) := by
  have hnew : Value.map m = .map (Record.union [] m) := by
    have hone : Record.union [] m = m := Record.unionAll_singleton hm
    rw [hone]
  cases old with
  | none => rw [over_none, hnew]; rfl
  | some v =>
    cases v with
    | map r => simp [Value.over, map?]
    | int n => simpa [Value.over, map?] using hnew
    | float x => simpa [Value.over, map?] using hnew
    | text s => simpa [Value.over, map?] using hnew

namespace Record

variable {r s : Record} {rs : List Record}

theorem found_getD_nil (old : Option Record) (path : List String) :
    found (old.getD []) path = old.bind fun m => found m path := by
  cases old with
  | some m => rfl
  | none =>
    cases path with
    | nil => rfl
    | cons k path =>
      cases path with
      | nil => rfl
      | cons k' path => exact found_cons_cons [] k k' path

/-- **The law of the union**: at each path the newer record decides if it says
something about it. -/
theorem found_union : ∀ {path : List String} {r s : Record}, Ordered s →
    found (union r s) path = (word s path).getD (found r path) := by
  intro path
  induction path with
  | nil => exact fun _ => rfl
  | cons k path ih =>
    intro r s hs
    have hget := get?_union r hs.sorted k
    cases path with
    | nil =>
      rw [found_singleton, hget, found_singleton, word]
      cases hv : Dict.get? s k with
      | none => rfl
      | some v =>
        cases hm : v.map? with
        | none =>
          simp [Value.over_of_isScalar _ (Value.isScalar_of_map?_none hm)]
        | some m =>
          obtain rfl := Value.map?_eq_some_iff.1 hm
          have hmem := hs.of_mem ((Dict.mem_iff_get? hs.sorted).2 hv)
          simp [Value.over_map _ hmem.sorted]
    | cons k' path =>
      rw [found_cons_cons, hget, found_cons_cons, word_cons_cons]
      cases hv : Dict.get? s k with
      | none => rfl
      | some v =>
        cases hm : v.map? with
        | none =>
          simp [Value.over_of_isScalar _ (Value.isScalar_of_map?_none hm), hm]
        | some m =>
          obtain rfl := Value.map?_eq_some_iff.1 hm
          have hmem := hs.of_mem ((Dict.mem_iff_get? hs.sorted).2 hv)
          -- Both sides go down into the map, over what the older record has there.
          have hbelow := @ih ((((Dict.get? r k).bind Value.map?)).getD []) m hmem
          rw [found_getD_nil] at hbelow
          simpa [Value.over_map _ hmem.sorted, Value.map?] using hbelow

/-- What the last of some records that says something about a path says. -/
def lastWord (rs : List Record) (path : List String) : Option (Option Mark) :=
  rs.reverse.findSome? (word · path)

theorem lastWord_append (as bs : List Record) (path : List String) :
    lastWord (as ++ bs) path = (lastWord bs path).or (lastWord as path) := by
  unfold lastWord
  rw [List.reverse_append, List.findSome?_append]

/-- **The law of many unions**: at each path the last word counts. -/
theorem found_foldl_union : ∀ {rs : List Record} {r : Record}, (∀ s ∈ rs, Ordered s) →
    ∀ path, found (rs.foldl union r) path = (lastWord rs path).getD (found r path) := by
  intro rs
  induction rs with
  | nil => exact fun _ _ => rfl
  | cons s rest ih =>
    intro r hrs path
    obtain ⟨hs, hrest⟩ := List.forall_mem_cons.1 hrs
    rw [List.foldl_cons, ih hrest, found_union hs]
    have hcons : lastWord (s :: rest) path = (lastWord rest path).or (word s path) := by
      unfold lastWord
      rw [List.reverse_cons, List.findSome?_append]
      cases hword : word s path with
      | none => simp [hword]
      | some mark => simp [hword]
    rw [hcons]
    cases lastWord rest path with
    | none => rfl
    | some mark => rfl

/-! ## §3. Records in key order. -/

theorem isOrdered_of_mem : ∀ {entries : Record}, areOrdered entries = true ↔
    ∀ p ∈ entries, Value.isOrdered p.2 = true := by
  intro entries
  induction entries with
  | nil => simp [areOrdered]
  | cons p rest ih => rw [areOrdered, Bool.and_eq_true, ih, List.forall_mem_cons]

/-- A record is in key order iff its keys are and every map that it holds is. -/
theorem ordered_iff : Ordered r ↔
    Dict.Sorted r ∧ ∀ k m, Dict.get? r k = some (.map m) → Ordered m := by
  constructor
  · intro hr
    exact ⟨hr.sorted, fun k m hm => hr.of_mem ((Dict.mem_iff_get? hr.sorted).2 hm)⟩
  · rintro ⟨hsorted, hmaps⟩
    simp only [Ordered, Value.isOrdered, Bool.and_eq_true, decide_eq_true_eq]
    refine ⟨hsorted, isOrdered_of_mem.2 ?_⟩
    rintro ⟨k, v⟩ hmem
    cases v with
    | map m => exact hmaps k m ((Dict.mem_iff_get? hsorted).1 hmem)
    | int _ | float _ | text _ => simp [Value.isOrdered]

theorem ordered_nil : Ordered [] := rfl

theorem isOrdered_of_isScalar {v : Value} (h : v.isScalar = true) : v.isOrdered = true := by
  cases v with
  | map m => cases h
  | int _ | float _ | text _ => simp [Value.isOrdered]

theorem Ordered.insert {v : Value} (hr : Ordered r) (k : String) (hv : v.isOrdered = true) :
    Ordered (Dict.insert r k v) := by
  refine ordered_iff.2 ⟨Dict.sorted_insert hr.sorted k v, ?_⟩
  intro k' m hm
  rw [Dict.get?_insert] at hm
  split at hm
  · injection hm with hm
    rw [hm] at hv
    exact hv
  · exact (ordered_iff.1 hr).2 k' m hm

/-- A record of scalars is in key order if its keys are. -/
theorem ordered_of_scalars (hsorted : Dict.Sorted r) (h : ∀ p ∈ r, p.2.isScalar = true) :
    Ordered r := by
  refine ordered_iff.2 ⟨hsorted, ?_⟩
  intro k m hm
  cases h _ (Dict.mem_of_get? hm)

/-- **The union of records in key order is in key order.** -/
theorem Ordered.union {r s : Record} (hr : Ordered r) (hs : Ordered s) :
    Ordered (Record.union r s) := by
  refine ordered_iff.2 ⟨sorted_union hr.sorted s, ?_⟩
  intro k m hm
  rw [get?_union r hs.sorted] at hm
  have holder := (ordered_iff.1 hr).2 k
  cases hv : Dict.get? s k with
  | none =>
    simp only [hv] at hm
    exact holder m hm
  | some v =>
    simp only [hv, Option.some.injEq] at hm
    cases hmap : v.map? with
    | none =>
      rw [Value.over_of_isScalar _ (Value.isScalar_of_map?_none hmap)] at hm
      rw [hm] at hmap
      cases hmap
    | some m' =>
      obtain rfl := Value.map?_eq_some_iff.1 hmap
      have hmem := (Dict.mem_iff_get? hs.sorted).2 hv
      have hm' := hs.of_mem hmem
      rw [Value.over_map _ hm'.sorted] at hm
      injection hm with hm
      have hsize : sizeOf m' < sizeOf s := by
        have := List.sizeOf_lt_of_mem hmem
        simp only [Prod.mk.sizeOf_spec, Value.map.sizeOf_spec] at this
        omega
      rw [← hm]
      refine Ordered.union ?_ hm'
      cases hold : (Dict.get? r k).bind Value.map? with
      | none => exact ordered_nil
      | some old =>
        obtain ⟨w, hw, hold⟩ := Option.bind_eq_some_iff.1 hold
        exact holder old (by rw [hw, Value.map?_eq_some_iff.1 hold])
termination_by sizeOf s

theorem Ordered.foldl_union {rs : List Record} {r : Record} (hr : Ordered r)
    (hrs : ∀ s ∈ rs, Ordered s) : Ordered (rs.foldl Record.union r) :=
  List.foldlRecOn (motive := Ordered) rs _ hr fun _ hdone s hs => hdone.union (hrs s hs)

/-! ## §4. Records are known by what is found in them. -/

/-- **Two records in key order with the same at every path are equal.** -/
theorem eq_of_found {r s : Record} (hr : Ordered r) (hs : Ordered s)
    (h : ∀ path, found r path = found s path) : r = s := by
  refine Dict.eq_of_get? hr.sorted hs.sorted ?_
  intro k
  have hhere : (Dict.get? r k).map Value.mark = (Dict.get? s k).map Value.mark := h [k]
  cases hv : Dict.get? r k with
  | none =>
    rw [hv] at hhere
    exact (Option.map_eq_none_iff.1 hhere.symm).symm
  | some v =>
    rw [hv] at hhere
    obtain ⟨w, hw, hmark⟩ := Option.map_eq_some_iff.1 hhere.symm
    rw [hw]
    rcases Value.eq_or_map_of_mark_eq hmark with rfl | ⟨m', m, rfl, rfl⟩
    · rfl
    · have hmem := (Dict.mem_iff_get? hr.sorted).2 hv
      -- The maps are the same below every key.
      have hbelow : ∀ path, found m path = found m' path := by
        intro path
        cases path with
        | nil => rfl
        | cons k' path =>
          have hpath := h (k :: k' :: path)
          rw [found_cons_cons, found_cons_cons, hv, hw] at hpath
          exact hpath
      have hsize : sizeOf m < sizeOf r := by
        have := List.sizeOf_lt_of_mem hmem
        simp only [Prod.mk.sizeOf_spec, Value.map.sizeOf_spec] at this
        omega
      rw [eq_of_found (hr.of_mem hmem) (hs.of_mem ((Dict.mem_iff_get? hs.sorted).2 hw)) hbelow]
termination_by sizeOf r

/-- **Uniting records a second time changes nothing**, whatever they are at odds
about. -/
theorem foldl_union_again {r : Record} {rs : List Record} (hr : Ordered r)
    (hrs : ∀ s ∈ rs, Ordered s) :
    rs.foldl union (rs.foldl union r) = rs.foldl union r := by
  have honce := hr.foldl_union hrs
  refine eq_of_found (honce.foldl_union hrs) honce ?_
  intro path
  rw [found_foldl_union hrs, found_foldl_union hrs]
  cases lastWord rs path with
  | none => rfl
  | some mark => rfl

/-! ## §5. Blocks in any order. -/

/-- Two records that are not at odds: at no path have they two different
scalars, or a scalar and a map. -/
def Compatible (r s : Record) : Prop :=
  ∀ path v w, at? r path = some v → at? s path = some w →
    v = w ∨ (v.isScalar = false ∧ w.isScalar = false)

/-- **Compatible records say the same** wherever both say something. -/
theorem Compatible.word_eq : ∀ {path : List String} {r s : Record} {a b : Option Mark},
    Compatible r s → word r path = some a → word s path = some b → a = b := by
  intro path
  induction path with
  | nil => exact fun _ ha _ => nomatch ha
  | cons k path ih =>
    intro r s a b h ha hb
    have hhere : ∀ v w, Dict.get? r k = some v → Dict.get? s k = some w →
        v = w ∨ (v.isScalar = false ∧ w.isScalar = false) := h [k]
    cases path with
    | nil =>
      obtain ⟨v, hv, rfl⟩ := Option.map_eq_some_iff.1 ha
      obtain ⟨w, hw, rfl⟩ := Option.map_eq_some_iff.1 hb
      rcases hhere v w hv hw with rfl | ⟨hvmap, hwmap⟩
      · rfl
      · simp [Value.mark, hvmap, hwmap]
    | cons k' path =>
      rw [word_cons_cons, Option.bind_eq_some_iff] at ha hb
      obtain ⟨v, hv, ha⟩ := ha
      obtain ⟨w, hw, hb⟩ := hb
      have hboth := hhere v w hv hw
      cases hvm : v.map? with
      | none =>
        have hscalar := Value.isScalar_of_map?_none hvm
        -- The other one has the same scalar here.
        obtain rfl : v = w := by
          rcases hboth with heq | ⟨hvmap, -⟩
          · exact heq
          · rw [hscalar] at hvmap; cases hvmap
        simp only [hvm, Option.some.injEq] at ha hb
        rw [← ha, hb]
      | some m =>
        cases hwm : w.map? with
        | none =>
          have hscalar := Value.isScalar_of_map?_none hwm
          rcases hboth with rfl | ⟨-, hwmap⟩
          · rw [hvm] at hwm; cases hwm
          · rw [hscalar] at hwmap; cases hwmap
        | some m' =>
          simp only [hvm] at ha
          simp only [hwm] at hb
          refine ih (r := m) (s := m') ?_ ha hb
          -- What stands below in the maps stands below in the records.
          intro below x y hx hy
          cases below with
          | nil => cases hx
          | cons k'' below =>
            refine h (k :: k'' :: below) x y ?_ ?_
            · rw [at?_cons_cons, hv, Option.bind_some, hvm, Option.bind_some, hx]
            · rw [at?_cons_cons, hw, Option.bind_some, hwm, Option.bind_some, hy]

/-- A flat record is compatible with one that has the same in the fields of
both. -/
theorem compatible_of_scalars {r s : Record} (hr : ∀ p ∈ r, p.2.map? = none)
    (hsame : ∀ p ∈ r, ∀ q ∈ s, p.1 = q.1 → p.2 = q.2) : Compatible r s := by
  intro path v w hv hw
  match path, hv, hw with
  | [k], hv, hw => exact .inl (hsame _ (Dict.mem_of_get? hv) _ (Dict.mem_of_get? hw) rfl)
  | k :: k' :: path, hv, _ =>
    -- Below a scalar there is nothing.
    rw [at?_cons_cons, Option.bind_eq_some_iff] at hv
    obtain ⟨m, hm, -⟩ := hv
    obtain ⟨x, hx, hm⟩ := Option.bind_eq_some_iff.1 hm
    rw [hr _ (Dict.mem_of_get? hx)] at hm
    cases hm

/-- A search that gives the same for all that it finds does not depend on the
order. -/
theorem findSome?_eq_of_perm {α β : Type} {f : α → Option β} {xs ys : List α} (hperm : xs.Perm ys)
    (hsame : ∀ x ∈ xs, ∀ y ∈ xs, ∀ a b, f x = some a → f y = some b → a = b) :
    xs.findSome? f = ys.findSome? f := by
  cases hx : xs.findSome? f with
  | none =>
    rw [List.findSome?_eq_none_iff] at hx
    exact (List.findSome?_eq_none_iff.2 fun y hy => hx y (hperm.mem_iff.2 hy)).symm
  | some a =>
    obtain ⟨x, hmem, ha⟩ := List.exists_of_findSome?_eq_some hx
    cases hy : ys.findSome? f with
    | none =>
      rw [List.findSome?_eq_none_iff.1 hy x (hperm.mem_iff.1 hmem)] at ha
      cases ha
    | some b =>
      obtain ⟨y, hmem', hb⟩ := List.exists_of_findSome?_eq_some hy
      rw [hsame x hmem y (hperm.mem_iff.2 hmem') a b ha hb]

theorem lastWord_flatten (blocks : List (List Record)) (path : List String) :
    lastWord blocks.flatten path = blocks.reverse.findSome? (lastWord · path) := by
  induction blocks with
  | nil => rfl
  | cons block rest ih =>
    rw [List.flatten_cons, lastWord_append, ih, List.reverse_cons, List.findSome?_append]
    cases hword : lastWord block path with
    | none => simp [hword]
    | some mark => simp [hword]

/-- **Blocks that are not at odds can be united in any order.**  Records of one
block may be at odds with each other, and a block may stand there twice. -/
theorem foldl_union_perm {r : Record} {blocks blocks' : List (List Record)} (hr : Ordered r)
    (hperm : blocks.Perm blocks') (hordered : ∀ block ∈ blocks, ∀ s ∈ block, Ordered s)
    (hblocks : ∀ b ∈ blocks, ∀ b' ∈ blocks,
      b = b' ∨ ∀ s ∈ b, ∀ s' ∈ b', Compatible s s') :
    blocks.flatten.foldl union r = blocks'.flatten.foldl union r := by
  have hall : ∀ s ∈ blocks.flatten, Ordered s := by
    intro s hs
    obtain ⟨block, hblock, hs⟩ := List.mem_flatten.1 hs
    exact hordered block hblock s hs
  have hall' : ∀ s ∈ blocks'.flatten, Ordered s :=
    fun s hs => hall s ((hperm.flatten).mem_iff.2 hs)
  refine eq_of_found (hr.foldl_union hall) (hr.foldl_union hall') ?_
  intro path
  rw [found_foldl_union hall, found_foldl_union hall', lastWord_flatten, lastWord_flatten]
  have hreverse : blocks.reverse.Perm blocks'.reverse :=
    (List.reverse_perm _).trans (hperm.trans (List.reverse_perm _).symm)
  rw [findSome?_eq_of_perm hreverse]
  intro b hb b' hb' x y hx hy
  rcases hblocks b (List.mem_reverse.1 hb) b' (List.mem_reverse.1 hb') with rfl | hcompatible
  · rw [hx] at hy
    injection hy
  · obtain ⟨s, hs, hword⟩ := List.exists_of_findSome?_eq_some hx
    obtain ⟨s', hs', hword'⟩ := List.exists_of_findSome?_eq_some hy
    exact (hcompatible s (List.mem_reverse.1 hs) s' (List.mem_reverse.1 hs')).word_eq hword hword'

end Record

end ReportStore

/-
  ReportStore.Proofs.Touching
  ───────────────────────────
  **WHAT A UNION HAS AT A PATH, AND FROM WHICH RECORD.**

  A record touches a path if it has a map there, or a scalar there or at a
  beginning of the path.  Records that do not touch a path have no part in
  what their union has at it, and of those that do the last one counts:

      scalar v at path  ↔  the last record that touches the path has v there
      map at path       ↔  some record has one there, and no later record
                           has a scalar there or above

  So a scalar that a record brings in is lost only to a later record that
  touches its path.
-/
import ReportStore.Proofs.LastWord

namespace ReportStore

/-- A scalar is its own mark, and no other value has that mark. -/
theorem Value.mark_eq_scalar_iff {v w : Value} :
    w.mark = .scalar v ↔ w = v ∧ v.isScalar = true := by
  unfold mark
  split
  · next h =>
    rw [Mark.scalar.injEq]
    exact ⟨fun heq => ⟨heq, heq ▸ h⟩, And.left⟩
  · next h =>
    refine ⟨nofun, ?_⟩
    rintro ⟨rfl, hv⟩
    exact absurd hv h

theorem Value.mark_eq_map_iff {w : Value} : w.mark = .map ↔ ∃ m, w = .map m := by
  cases w with
  | map m => exact ⟨fun _ => ⟨m, rfl⟩, fun _ => rfl⟩
  | int _ | float _ | text _ => exact ⟨nofun, nofun⟩

namespace Record

variable {r : Record} {rs : List Record} {k k' : String} {path : List String} {v : Value}

/-! ## §1. Touching a path. -/

/-- A scalar stands at a path, or at a beginning of it. -/
def ScalarAlong (r : Record) (path : List String) : Prop :=
  ∃ p v, p <+: path ∧ at? r p = some v ∧ v.isScalar = true

/-- A scalar stands along the path, or a map at its end. -/
def Touches (r : Record) (path : List String) : Prop :=
  ScalarAlong r path ∨ ∃ m, at? r path = some (.map m)

theorem ScalarAlong.of_at? (h : at? r path = some v) (hv : v.isScalar = true) :
    ScalarAlong r path :=
  ⟨path, v, List.prefix_rfl, h, hv⟩

/-- A path of one key has no beginning but itself. -/
theorem scalarAlong_singleton :
    ScalarAlong r [k] ↔ ∃ v, Dict.get? r k = some v ∧ v.isScalar = true := by
  constructor
  · rintro ⟨p, v, hp, hv, hscalar⟩
    cases p with
    | nil => cases hv
    | cons x rest =>
      obtain ⟨rfl, hrest⟩ := List.cons_prefix_cons.1 hp
      rw [List.prefix_nil.1 hrest] at hv
      exact ⟨v, hv, hscalar⟩
  · rintro ⟨v, hv, hscalar⟩
    exact .of_at? hv hscalar

/-- Along a longer path the scalar stands at the first key, or along the rest in
the map at that key. -/
theorem scalarAlong_cons_cons :
    ScalarAlong r (k :: k' :: path) ↔
      (∃ v, Dict.get? r k = some v ∧ v.isScalar = true) ∨
      ∃ m, Dict.get? r k = some (.map m) ∧ ScalarAlong m (k' :: path) := by
  constructor
  · rintro ⟨p, v, hp, hv, hscalar⟩
    cases p with
    | nil => cases hv
    | cons x rest =>
      obtain ⟨rfl, hrest⟩ := List.cons_prefix_cons.1 hp
      cases rest with
      | nil => exact .inl ⟨v, hv, hscalar⟩
      | cons y rest =>
        rw [at?_cons_cons, Option.bind_eq_some_iff] at hv
        obtain ⟨m, hm, hv⟩ := hv
        obtain ⟨w, hw, hwm⟩ := Option.bind_eq_some_iff.1 hm
        rw [Value.map?_eq_some_iff.1 hwm] at hw
        exact .inr ⟨m, hw, y :: rest, v, hrest, hv, hscalar⟩
  · rintro (⟨v, hv, hscalar⟩ | ⟨m, hm, p, v, hp, hv, hscalar⟩)
    · exact ⟨[k], v, List.cons_prefix_cons.2 ⟨rfl, List.nil_prefix⟩, hv, hscalar⟩
    · refine ⟨k :: p, v, List.cons_prefix_cons.2 ⟨rfl, hp⟩, ?_, hscalar⟩
      cases p with
      | nil => cases hv
      | cons y rest =>
        rw [at?_cons_cons, hm]
        exact hv

/-- What a record can say about a path, by what it has along it. -/
inductive Says (r : Record) (path : List String) : Option (Option Mark) → Prop where
  /-- Neither at the path nor along it is there anything to say. -/
  | nothing (here : at? r path = none) (along : ¬ ScalarAlong r path) : Says r path none
  /-- A scalar stands above, so there is nothing at the path. -/
  | above (here : at? r path = none) (along : ScalarAlong r path) : Says r path (some none)
  /-- There is a value at the path. -/
  | value {v : Value} (here : at? r path = some v) : Says r path (some (some v.mark))

/-- **What a record says about a path is told by what it has along it.** -/
theorem says_word : ∀ {path : List String} {r : Record}, Says r path (word r path) := by
  intro path
  induction path with
  | nil =>
    intro r
    refine .nothing rfl ?_
    rintro ⟨p, v, hp, hv, -⟩
    rw [List.prefix_nil.1 hp] at hv
    cases hv
  | cons k path ih =>
    intro r
    cases path with
    | nil =>
      rw [word]
      cases hv : Dict.get? r k with
      | none =>
        refine .nothing hv ?_
        rw [scalarAlong_singleton, hv]
        simp
      | some v => exact .value hv
    | cons k' path =>
      have hat := at?_cons_cons r k k' path
      rw [word_cons_cons]
      cases hv : Dict.get? r k with
      | none =>
        rw [hv] at hat
        refine .nothing hat ?_
        rw [scalarAlong_cons_cons, hv]
        simp
      | some v =>
        cases hm : v.map? with
        | none =>
          rw [hv, Option.bind_some, hm] at hat
          simp only [Option.bind_some, hm]
          exact .above hat
            (scalarAlong_cons_cons.2 (.inl ⟨v, hv, Value.isScalar_of_map?_none hm⟩))
        | some m =>
          rw [hv, Option.bind_some, hm, Option.bind_some] at hat
          simp only [Option.bind_some, hm]
          -- The map has along the rest of the path what the record has along it.
          have halong : ScalarAlong r (k :: k' :: path) ↔ ScalarAlong m (k' :: path) := by
            obtain rfl := Value.map?_eq_some_iff.1 hm
            rw [scalarAlong_cons_cons, hv]
            simp [Value.isScalar]
          have hsays := @ih m
          generalize word m (k' :: path) = said at hsays ⊢
          cases hsays with
          | nothing here along => exact .nothing (hat.trans here) (mt halong.1 along)
          | above here along => exact .above (hat.trans here) (halong.2 along)
          | value here => exact .value (hat.trans here)

/-- A record touches the paths that it says something about. -/
theorem touches_iff : Touches r path ↔ word r path ≠ none := by
  have hsays := @says_word path r
  generalize word r path = said at hsays ⊢
  cases hsays with
  | nothing here along => simp [Touches, along, here]
  | above here along => simp [Touches, along]
  | @value v here =>
    simp only [ne_eq, reduceCtorEq, not_false_eq_true, iff_true]
    cases hm : v.map? with
    | none => exact .inl (.of_at? here (Value.isScalar_of_map?_none hm))
    | some m => exact .inr ⟨m, Value.map?_eq_some_iff.1 hm ▸ here⟩

theorem word_eq_none_iff : word r path = none ↔ ¬ Touches r path := by
  rw [touches_iff, not_not]

/-! ## §2. What a union has at a path. -/

/-- The last record among some that touches a path. -/
def LastTouching (rs : List Record) (path : List String) (r : Record) : Prop :=
  ∃ before after, rs = before ++ r :: after ∧ Touches r path ∧ ∀ s ∈ after, ¬ Touches s path

theorem found_eq_scalar_iff :
    found r path = some (.scalar v) ↔ at? r path = some v ∧ v.isScalar = true := by
  unfold found
  rw [Option.map_eq_some_iff]
  constructor
  · rintro ⟨w, hw, hmark⟩
    obtain ⟨rfl, hv⟩ := Value.mark_eq_scalar_iff.1 hmark
    exact ⟨hw, hv⟩
  · rintro ⟨hat, hv⟩
    exact ⟨v, hat, Value.mark_eq_scalar_iff.2 ⟨rfl, hv⟩⟩

theorem found_eq_map_iff : found r path = some .map ↔ ∃ m, at? r path = some (.map m) := by
  unfold found
  rw [Option.map_eq_some_iff]
  constructor
  · rintro ⟨w, hw, hmark⟩
    obtain ⟨m, rfl⟩ := Value.mark_eq_map_iff.1 hmark
    exact ⟨m, hw⟩
  · rintro ⟨m, hm⟩
    exact ⟨_, hm, Value.mark_map m⟩

/-- What is found at a path is what the record says about it. -/
theorem found_eq_some_iff {mark : Mark} :
    found r path = some mark ↔ word r path = some (some mark) := by
  unfold found
  have hsays := @says_word path r
  generalize word r path = said at hsays ⊢
  cases hsays with
  | nothing here along => simp [here]
  | above here along => simp [here]
  | value here => simp [here]

/-- The last word is that of the last record that touches the path. -/
theorem lastWord_eq_some_iff {said : Option Mark} :
    lastWord rs path = some said ↔ ∃ r, LastTouching rs path r ∧ word r path = some said := by
  unfold lastWord
  rw [List.findSome?_eq_some_iff]
  constructor
  · rintro ⟨after, r, before, hsplit, hword, hafter⟩
    refine ⟨r, ⟨before.reverse, after.reverse, ?_, ?_, ?_⟩, hword⟩
    · rw [← List.reverse_reverse rs, hsplit, List.reverse_append, List.reverse_cons,
        List.append_assoc, List.singleton_append]
    · rw [touches_iff, hword]
      simp
    · exact fun s hs => word_eq_none_iff.1 (hafter s (List.mem_reverse.1 hs))
  · rintro ⟨r, ⟨before, after, rfl, -, hafter⟩, hword⟩
    refine ⟨after.reverse, r, before.reverse, ?_, hword, ?_⟩
    · rw [List.reverse_append, List.reverse_cons, List.append_assoc, List.singleton_append]
    · exact fun s hs => word_eq_none_iff.2 (hafter s (List.mem_reverse.1 hs))

/-- **What is found in a union** is found in the last record that touches the
path. -/
theorem found_unionAll_eq_some_iff (hrs : ∀ r ∈ rs, Ordered r) {mark : Mark} :
    found (unionAll rs) path = some mark ↔
      ∃ r, LastTouching rs path r ∧ found r path = some mark := by
  have hempty : found ([] : Record) path = none := found_getD_nil none path
  have hfound : found (unionAll rs) path = (lastWord rs path).getD none := by
    rw [← hempty]
    exact found_foldl_union hrs path
  rw [hfound]
  simp only [found_eq_some_iff]
  rw [← lastWord_eq_some_iff]
  cases lastWord rs path with
  | none => simp
  | some said => simp

/-- Of records one of which touches a path there is a last one that does, not before
that one. -/
theorem exists_lastTouching {before after : List Record} (h : Touches r path) :
    ∃ s ∈ r :: after, LastTouching (before ++ r :: after) path s := by
  cases hlast : lastWord (r :: after) path with
  | none =>
    unfold lastWord at hlast
    rw [List.findSome?_eq_none_iff] at hlast
    exact absurd (hlast r (List.mem_reverse.2 List.mem_cons_self)) (touches_iff.1 h)
  | some said =>
    obtain ⟨s, ⟨between, rest, hsplit, htouches, hrest⟩, -⟩ := lastWord_eq_some_iff.1 hlast
    refine ⟨s, ?_, before ++ between, rest, ?_, htouches, hrest⟩
    · rw [hsplit]
      exact List.mem_append_right _ List.mem_cons_self
    · rw [hsplit, List.append_assoc]

/-- A union has a map where a record has one and none after it has a scalar along
the path. -/
theorem exists_map_iff (hrs : ∀ r ∈ rs, Ordered r) :
    (∃ m, at? (unionAll rs) path = some (.map m)) ↔
      ∃ before r after, rs = before ++ r :: after ∧ (∃ m, at? r path = some (.map m)) ∧
        ∀ s ∈ after, ¬ ScalarAlong s path := by
  rw [← found_eq_map_iff, found_unionAll_eq_some_iff hrs]
  constructor
  · rintro ⟨r, ⟨before, after, hsplit, -, hafter⟩, hmap⟩
    exact ⟨before, r, after, hsplit, found_eq_map_iff.1 hmap,
      fun s hs along => hafter s hs (.inl along)⟩
  · rintro ⟨before, r, after, rfl, hmap, hafter⟩
    obtain ⟨s, hs, hlast⟩ : ∃ s ∈ r :: after, LastTouching (before ++ r :: after) path s :=
      exists_lastTouching (.inr hmap)
    refine ⟨s, hlast, found_eq_map_iff.2 ?_⟩
    rcases List.mem_cons.1 hs with rfl | hs
    · exact hmap
    · -- What touches the path without a scalar along it has a map at its end.
      obtain ⟨-, -, -, htouches, -⟩ := hlast
      exact htouches.resolve_left (hafter s hs)

/-- **The union, path by path.**  A union has a scalar at a path iff the last record that
touches the path has it there.  It has a map there iff some record has one and
no later record has a scalar at the path or at a beginning of it.  And a scalar
that a record brings in is there in the end, unless a later record touches its
path. -/
theorem unionAll_pathwise (hrs : ∀ r ∈ rs, Ordered r) (path : List String) :
    (∀ v, v.isScalar = true →
      (at? (unionAll rs) path = some v ↔
        ∃ r, LastTouching rs path r ∧ at? r path = some v)) ∧
    ((∃ m, at? (unionAll rs) path = some (.map m)) ↔
      ∃ before r after, rs = before ++ r :: after ∧ (∃ m, at? r path = some (.map m)) ∧
        ∀ s ∈ after, ¬ ScalarAlong s path) ∧
    ∀ before r after v, rs = before ++ r :: after → at? r path = some v → v.isScalar = true →
      at? (unionAll rs) path = some v ∨ ∃ s ∈ after, Touches s path := by
  have hscalars : ∀ v, v.isScalar = true →
      (at? (unionAll rs) path = some v ↔
        ∃ r, LastTouching rs path r ∧ at? r path = some v) := by
    intro v hv
    have hfound : found (unionAll rs) path = some (.scalar v) ↔
        ∃ r, LastTouching rs path r ∧ found r path = some (.scalar v) :=
      found_unionAll_eq_some_iff hrs
    simpa only [found_eq_scalar_iff, hv, and_true] using hfound
  refine ⟨hscalars, exists_map_iff hrs, ?_⟩
  intro before r after v hsplit hat hv
  by_cases htouched : ∃ s ∈ after, Touches s path
  · exact .inr htouched
  · refine .inl ((hscalars v hv).2 ⟨r, ⟨before, after, hsplit, .inl (.of_at? hat hv), ?_⟩, hat⟩)
    exact fun s hs htouches => htouched ⟨s, hs, htouches⟩

/-- A map with a leaf, a scalar in its place, and a map again. -/
def wipedAndRevived : List Record :=
  [[("a", .map [("b", .int 1), ("c", .int 2)])], [("a", .int 5)],
    [("a", .map [("b", .text "6")])], [("a", .map [("d", .map [])])]]

/-- A map that a scalar has wiped out comes back with what later records put into
it: at `a.b` the third record is the last that touches the path, and at `a.d`
the fourth one brings in a map. -/
theorem unionAll_pathwise_revived :
    (∀ r ∈ wipedAndRevived, Ordered r) ∧
      at? (unionAll wipedAndRevived) ["a", "b"] = some (.text "6") ∧
      ∃ m, at? (unionAll wipedAndRevived) ["a", "d"] = some (.map m) := by
  have hordered : ∀ r ∈ wipedAndRevived, Ordered r := by decide
  obtain ⟨hscalar, -, -⟩ := unionAll_pathwise hordered ["a", "b"]
  obtain ⟨-, hmap, -⟩ := unionAll_pathwise hordered ["a", "d"]
  refine ⟨hordered, ?_, ?_⟩
  · refine (hscalar _ rfl).2 ⟨[("a", .map [("b", .text "6")])], ⟨wipedAndRevived.take 2,
      wipedAndRevived.drop 3, rfl, .inl (.of_at? rfl rfl), ?_⟩, rfl⟩
    intro s hs
    rw [← word_eq_none_iff, List.mem_singleton.1 hs]
    rfl
  · exact hmap.2 ⟨wipedAndRevived.take 3, [("a", .map [("d", .map [])])], [], rfl, ⟨[], rfl⟩,
      List.forall_mem_nil _⟩

end Record

end ReportStore

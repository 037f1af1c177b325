/-
  ReportStore.Proofs.Saving.Confined
  ──────────────────────────────────
  **A SAVE KEEPS TO ITS BASE.**

  The texts of a record and the groups of a codec become names in the file
  tree, and neither is to be trusted: a text may hold a slash, lead up with
  dots, or start at the root.  Names are checked before anything is written,
  and a plain name leads one place further and nowhere else.  So whatever a
  save comes to, all that it can have done is

      make directories    on the way to the base
      make a directory    <base>/<sensor>-<target>
      add to files        <base>/<sensor>-<target>/<group>.csv

  and everything else is as it was.  A save that fails has done a part of it.
-/
import ReportStore.Proofs.Saving.Entities
import ReportStore.Proofs.Saving.Effect

namespace ReportStore

/-- The pieces of a base start with those that stand before a name joined to it. -/
theorem Path.exists_pieces_eq_lead_append (base : String) :
    ∃ rest, pieces base = lead base ++ rest := by
  have hnone : isAbsolute "" = false := by decide
  have hempty : pieces "" = [""] := by decide
  have hlead : ∀ stem, pieces (stem ++ "/") = pieces stem ++ [""] := by
    intro stem
    have h := pieces_slash stem ""
    rwa [String.append_empty, hempty] at h
  unfold lead
  rcases join_shape base with ⟨rfl, hjoin⟩ | ⟨-, stem, hstem, hjoin⟩
  · rw [hjoin "" hnone, hempty]
    exact ⟨[""], rfl⟩
  · rw [hjoin "" hnone, String.append_empty, hlead, List.dropLast_concat]
    rcases hstem with rfl | rfl
    · exact ⟨[], (List.append_nil _).symm⟩
    · exact ⟨[""], hlead stem⟩

namespace FileTree

variable {t : FileTree} {here q : Place}

/-! ## §1. The directories that are made. -/

theorem stations_concat (piece : String) : ∀ (pieces : List String) (here : Place),
    stations here (pieces ++ [piece]) =
      stations here pieces ++ [move (pieces.foldl move here) piece] := by
  intro pieces
  induction pieces with
  | nil => exact fun _ => rfl
  | cons first rest ih =>
    intro here
    show here :: stations (move here first) (rest ++ [piece]) = _
    rw [ih]
    rfl

/-- A way passes all places of its beginning. -/
theorem stations_subset (more : List String) : ∀ {pieces : List String} {here : Place},
    q ∈ stations here pieces → q ∈ stations here (pieces ++ more) := by
  intro pieces
  induction pieces with
  | nil =>
    intro here hq
    rw [List.mem_singleton.1 hq]
    exact mem_stations_self here _
  | cons first rest ih =>
    intro here hq
    rcases List.mem_cons.1 hq with rfl | hq
    · exact mem_stations_self q _
    · exact List.mem_cons_of_mem _ (ih hq)

/-- **The way to a name below a base** leads over the way to the base, and then
to the name. -/
theorem mem_route_join {base name : String} (hname : Path.isPlain name = true)
    (hq : q ∈ route (Path.join base name)) : q ∈ route base ∨ q = placeOf base ++ [name] := by
  have hplace := placeOf_join base hname
  unfold placeOf at hplace
  unfold route at hq ⊢
  rw [origin_join hname, Path.pieces_join base hname] at hq hplace
  rw [stations_concat, List.mem_append] at hq
  rcases hq with hq | hq
  · obtain ⟨rest, hrest⟩ := Path.exists_pieces_eq_lead_append base
    rw [hrest]
    exact .inl (stations_subset rest hq)
  · rw [List.foldl_append] at hplace
    exact .inr ((List.mem_singleton.1 hq).trans hplace)

/-- Places off the way stay as they are, however far the directories got. -/
theorem node?_makeAlong_of_not_mem : ∀ {pieces : List String} (t : FileTree) (made : Bool)
    {here : Place}, q ∉ stations here pieces →
      (t.makeAlong made here pieces).1.node? q = t.node? q := by
  intro pieces
  induction pieces with
  | nil => exact fun _ _ _ _ => rfl
  | cons piece rest ih =>
    intro t made here hq
    have hlater : q ∉ stations (move here piece) rest := fun h => hq (List.mem_cons_of_mem _ h)
    unfold makeAlong
    split
    · rfl
    · split
      · next next hstep =>
        rw [(step_ok hstep).2]
        exact ih t made hlater
      · next hstep =>
        obtain ⟨-, hturn, -, hnone⟩ := step_notFound hstep
        have hanchor : isAnchor (here ++ [piece]) = false :=
          isAnchor_eq_false_of_node? (by rw [hnone]; simp)
        rw [move_of_not_isTurn hturn] at hlater
        have hne : q ≠ here ++ [piece] := fun h => hlater (h ▸ mem_stations_self _ _)
        rw [ih _ true hlater, node?_put t hanchor, if_neg hne]
      · rfl

/-- **Directories are made on the way**, where nothing was, and nothing else
changes, whether the way is made to its end or not. -/
theorem makeDirectories_effect (t : FileTree) (path : String) (q : Place) :
    (t.makeDirectories path).1.node? q = t.node? q ∨
      q ∈ route path ∧ t.node? q = none ∧
        (t.makeDirectories path).1.node? q = some .directory := by
  by_cases hq : q ∈ route path
  · exact (makeDirectories_grown t path q).imp_right fun h => ⟨hq, h⟩
  · left
    unfold makeDirectories
    split
    · rfl
    · split
      · rfl
      · exact node?_makeAlong_of_not_mem t false hq

end FileTree

open FileTree

/-! ## §2. A save. -/

/-- The directory of the entity of a record has this name. -/
def IsNamed (r : Record) (name : String) : Prop :=
  ∃ sensor target, Plan.nameField r "sensor" = .ok sensor ∧
    Plan.nameField r "target" = .ok target ∧ name = sensor ++ "-" ++ target

theorem IsNamed.isPlain {r : Record} {name : String} (h : IsNamed r name) :
    Path.isPlain name = true := by
  obtain ⟨sensor, target, hsensor, htarget, rfl⟩ := h
  exact Path.isPlain_entity (Plan.nameField_ok hsensor).2 (Plan.nameField_ok htarget).2

/-- What a save can do at a place. -/
inductive SaveEffect (s : Store) (r : Record) (t t' : FileTree) (p : Place) : Prop where
  /-- Nothing. -/
  | kept (same : t'.node? p = t.node? p)
  /-- It makes a directory on the way to the base, or the base. -/
  | onTheWay (way : p ∈ route s.base) (missing : t.node? p = none)
      (made : t'.node? p = some .directory)
  /-- It makes the directory of the entity in the base. -/
  | entity {name : String} (named : IsNamed r name) (place : p = placeOf s.base ++ [name])
      (missing : t.node? p = none) (made : t'.node? p = some .directory)
  /-- It adds to the file of a group in the directory of the entity, or makes it. -/
  | file {name : String} {groups : GroupRows} {g : String × List Record} {more : Bytes}
      (named : IsNamed r name) (split : s.codec.toGroups r = .ok groups) (mem : g ∈ groups)
      (rows : g.2 ≠ []) (plain : Path.isPlain g.1 = true)
      (place : p = placeOf s.base ++ [name, Codec.fileOfGroup g.1])
      (noDirectory : t.node? p ≠ some .directory) (new : more ≠ [])
      (added : t'.node? p = some (.file (t.bytesAt p ++ more)))

variable {s : Store} {t t' t'' : FileTree} {r : Record} {plan : Plan} {p : Place}

theorem SaveEffect.of_same (h : SaveEffect s r t t' p) (hsame : t''.node? p = t'.node? p) :
    SaveEffect s r t t'' p := by
  cases h with
  | kept same => exact .kept (hsame.trans same)
  | onTheWay way missing made => exact .onTheWay way missing (hsame.trans made)
  | entity named place missing made => exact .entity named place missing (hsame.trans made)
  | file named split mem rows plain place noDirectory new added =>
    exact .file named split mem rows plain place noDirectory new (hsame.trans added)

/-- A plan is made for an entity. -/
theorem exists_entity_of_plan (hplan : Plan.ofRecord t s.base s.codec r = .ok plan) :
    ∃ name, IsNamed r name ∧ plan.directory = Path.join s.base name := by
  obtain ⟨sensor, target, hsensor, htarget, hdirectory⟩ :=
    Plan.entityDirectory_ok (Plan.ofRecord_ok hplan).1
  exact ⟨_, ⟨sensor, target, hsensor, htarget, rfl⟩, hdirectory⟩

/-- The directories of a plan. -/
theorem SaveEffect.of_made (hplan : Plan.ofRecord t s.base s.codec r = .ok plan) (p : Place) :
    SaveEffect s r t (t.makeDirectories plan.directory).1 p := by
  obtain ⟨name, hname, hdirectory⟩ := exists_entity_of_plan hplan
  rcases makeDirectories_effect t plan.directory p with hsame | ⟨hroute, hmissing, hmade⟩
  · exact .kept hsame
  · rw [hdirectory] at hroute
    rcases mem_route_join hname.isPlain hroute with hway | hplace
    · exact .onTheWay hway hmissing hmade
    · exact .entity hname hplace hmissing hmade

/-- **A save keeps to its base.**  Whatever the tree, the codec and the record
are, and whether the save succeeds or fails: a place is as it was before, or it
is a directory that was missing on the way to the base, the base itself or the
directory of the entity in it, or it is a file of a group in that directory
and only bytes at its end are new. -/
theorem save_confined (t : FileTree) (s : Store) (r : Record) (p : Place) :
    SaveEffect s r t (s.save t r).state.1 p := by
  show SaveEffect s r t (saveBelow s.base s.codec t r).state p
  cases hplan : Plan.ofRecord t s.base s.codec r with
  | error e => exact .kept (by simp only [saveBelow, hplan])
  | ok plan =>
    have hdirs := SaveEffect.of_made hplan p
    have hgrown := makeDirectories_grown t plan.directory
    rcases hmade : t.makeDirectories plan.directory with ⟨made, e | ⟨⟨⟩⟩⟩
    · rw [hmade] at hdirs
      have hstate : (saveBelow s.base s.codec t r).state = made := by
        simp only [saveBelow, hplan, Plan.commit, hmade]
      exact hstate ▸ hdirs
    · rw [hmade] at hdirs hgrown
      rw [(saveBelow_of_performAll hplan hmade).2]
      rcases Append.performAll_effect p plan.appends made with
        hsame | ⟨⟨a, ha, hplace⟩, hnode, more, hmore, hadded⟩
      · exact hdirs.of_same hsame
      · obtain ⟨groups, hgroups, -, hfits, -, happends⟩ := Plan.ofRecord_ok_iff.1 hplan
        obtain ⟨g, hg, hrows, hpath⟩ := Plan.exists_group_of_append happends ha
        obtain ⟨name, hname, hdirectory⟩ := exists_entity_of_plan hplan
        have hplain := (hfits g hg).plain
        have hfile : p = placeOf s.base ++ [name, Codec.fileOfGroup g.1] := by
          rw [← hplace, hpath, Plan.placeOf_fileIn hplain, hdirectory,
            placeOf_join _ hname.isPlain, List.append_assoc]
          rfl
        -- A file was not made a directory, so the place is as it was until the appends.
        have hbefore : t.node? p ≠ some .directory := fun h => hnode (hgrown.node?_eq h)
        rw [hgrown.bytesAt] at hadded
        exact .file hname hgroups hg hrows hplain hfile hbefore hmore hadded

/-- **A name that is not plain is refused before anything is done**, be it that
of the entity or that of one group among many. -/
theorem save_of_not_isPlain (t : FileTree)
    (h : (∀ name, ¬ IsNamed r name) ∨ ∃ groups, s.codec.toGroups r = .ok groups ∧
      ∃ g ∈ groups, Path.isPlain g.1 = false) : (s.save t r).state.1 = t := by
  show (saveBelow s.base s.codec t r).state = t
  cases hplan : Plan.ofRecord t s.base s.codec r with
  | error e => simp only [saveBelow, hplan]
  | ok plan =>
    rcases h with hentity | ⟨groups, hgroups, g, hg, hplain⟩
    · obtain ⟨name, hname, -⟩ := exists_entity_of_plan hplan
      exact absurd hname (hentity name)
    · obtain ⟨groups', hgroups', -, hfits, -, -⟩ := Plan.ofRecord_ok_iff.1 hplan
      obtain rfl : groups = groups' := Except.ok.inj (hgroups.symm.trans hgroups')
      rw [(hfits g hg).plain] at hplain
      cases hplain

end ReportStore

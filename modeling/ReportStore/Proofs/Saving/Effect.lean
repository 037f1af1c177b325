/-
  ReportStore.Proofs.Saving.Effect
  ────────────────────────────────
  **WHAT A SAVE LEAVES BEHIND.**

  A save that succeeds has made the directories on the way to its entity and
  has added the lines of each group to the group's file, after a header if
  the file had none.  Nothing else has changed, place by place:

      node? after q = the bytes that were at q, and the lines added there

  A save that was refused by anything but the system has changed nothing.
  What a save counts is read off its appends.
-/
import ReportStore.Store
import ReportStore.Proofs.Csv.Table
import ReportStore.Proofs.Saving.Commit

namespace ReportStore

namespace FileTree

variable {t t' : FileTree}

/-! ## §1. The directories on the way. -/

/-- The places that some pieces lead over, the first and the last included. -/
def stations (here : Place) : List String → List Place
  | [] => [here]
  | piece :: rest => here :: stations (move here piece) rest

/-- The places that a path leads over. -/
def route (path : String) : List Place := stations (origin path) (Path.pieces path)

theorem mem_stations_self (here : Place) (pieces : List String) :
    here ∈ stations here pieces := by
  cases pieces with
  | nil => exact List.mem_singleton.2 rfl
  | cons piece rest => exact List.mem_cons_self

theorem node?_of_isDirectory {p : Place} (h : t.isDirectory p = true) :
    t.node? p = some .directory := by
  unfold isDirectory at h
  simpa using h

/-- **Directories that were made**: those on the way, and no other. -/
theorem node?_makeAlong : ∀ {pieces : List String} {t t' : FileTree} {made : Bool} {here : Place},
    t.makeAlong made here pieces = (t', .ok ()) →
      ∀ q, t'.node? q = if q ∈ stations here pieces then some .directory else t.node? q := by
  intro pieces
  induction pieces with
  | nil =>
    intro t t' made here h q
    unfold makeAlong at h
    injection h with htree hok
    subst htree
    show t.node? q = if q ∈ [here] then some .directory else t.node? q
    by_cases hq : q = here
    · subst hq
      rw [if_pos (List.mem_singleton.2 rfl)]
      by_cases hdir : t.isDirectory q = true
      · exact node?_of_isDirectory hdir
      · simp [hdir] at hok
    · rw [if_neg (by simpa using hq)]
  | cons piece rest ih =>
    intro t t' made here h q
    show t'.node? q = if q ∈ here :: stations (move here piece) rest then _ else _
    unfold makeAlong at h
    split at h
    · cases h
    · split at h
      · next next hstep =>
        -- The place is a directory, for there was a step from it.
        obtain ⟨hdir, hnext⟩ := step_ok hstep
        rw [ih h q, hnext]
        by_cases hq : q ∈ stations (move here piece) rest
        · rw [if_pos hq, if_pos (List.mem_cons_of_mem _ hq)]
        · rw [if_neg hq]
          by_cases hhere : q = here
          · rw [hhere, if_pos List.mem_cons_self]
            exact node?_of_isDirectory hdir
          · rw [if_neg (by simp [hhere, hq])]
      · next hstep =>
        obtain ⟨hdir, hturn, -, hnone⟩ := step_notFound hstep
        have hanchor : isAnchor (here ++ [piece]) = false :=
          isAnchor_eq_false_of_node? (by rw [hnone]; simp)
        rw [ih h q, move_of_not_isTurn hturn]
        by_cases hq : q ∈ stations (here ++ [piece]) rest
        · rw [if_pos hq, if_pos (List.mem_cons_of_mem _ hq)]
        · have hne : q ≠ here ++ [piece] := fun hne => hq (hne ▸ mem_stations_self _ _)
          rw [if_neg hq, node?_put t hanchor, if_neg hne]
          by_cases hhere : q = here
          · rw [hhere, if_pos List.mem_cons_self]
            exact node?_of_isDirectory hdir
          · rw [if_neg (by simp [hhere, hq])]
      · cases h

theorem node?_makeDirectories {path : String} (hpath : path ≠ "")
    (h : t.makeDirectories path = (t', .ok ())) (q : Place) :
    t'.node? q = if q ∈ route path then some .directory else t.node? q := by
  unfold makeDirectories at h
  have hempty : path.isEmpty = false := by simpa using hpath
  simp only [hempty, Bool.false_eq_true, if_false] at h
  cases hfault : pathFault? path with
  | some e => simp [hfault] at h
  | none =>
    simp only [hfault] at h
    exact node?_makeAlong h q

/-- No bytes come or go when directories are made. -/
theorem Grown.bytesAt (h : Grown t t') (p : Place) : t'.bytesAt p = t.bytesAt p := by
  unfold FileTree.bytesAt
  rcases h p with heq | ⟨hnone, hdir⟩
  · rw [heq]
  · rw [hnone, hdir]

end FileTree

/-! ## §2. The bytes that appends add. -/

namespace Append

open FileTree

/-- The bytes that some appends add to the file at a place. -/
def addedAt (p : Place) (appends : List Append) : Bytes :=
  (appends.filter fun a => placeOf a.path == p).flatMap Append.bytes

theorem addedAt_append (p : Place) (a b : List Append) :
    addedAt p (a ++ b) = addedAt p a ++ addedAt p b := by
  unfold addedAt
  rw [List.filter_append, List.flatMap_append]

theorem addedAt_flatMap {α : Type} (p : Place) (f : α → List Append) (xs : List α) :
    addedAt p (xs.flatMap f) = xs.flatMap fun x => addedAt p (f x) := by
  unfold addedAt
  rw [List.filter_flatMap, List.flatMap_assoc]

/-- Appends to one file. -/
theorem addedAt_of_path {p : Place} {path : String} {appends : List Append}
    (h : ∀ a ∈ appends, a.path = path) :
    addedAt p appends = if placeOf path = p then appends.flatMap Append.bytes else [] := by
  unfold addedAt
  by_cases hp : placeOf path = p
  · rw [if_pos hp, List.filter_eq_self.2]
    intro a ha
    rw [h a ha, hp]
    exact beq_self_eq_true p
  · rw [if_neg hp, List.filter_eq_nil_iff.2]
    · rfl
    · intro a ha
      rw [h a ha]
      simpa using hp

/-- **What appends that were all performed leave at a place.** -/
theorem node?_performAll_ok : ∀ {appends : List Append} {t : FileTree},
    (performAll t appends).result = .ok () → ∀ q, (performAll t appends).state.node? q =
      if addedAt q appends = [] then t.node? q
      else some (.file (t.bytesAt q ++ addedAt q appends)) := by
  intro appends
  induction appends with
  | nil => exact fun _ _ => rfl
  | cons a rest ih =>
    intro t h q
    unfold performAll at h ⊢
    cases happend : t.append a.path a.bytes with
    | error e => simp only [happend, reduceCtorEq] at h
    | ok t' =>
      simp only [happend] at h
      show (performAll t' rest).state.node? q = _
      have hnode := node?_append happend q
      have hadded : addedAt q (a :: rest) =
          (if placeOf a.path = q then a.bytes else []) ++ addedAt q rest := by
        have hpath : ∀ b ∈ [a], b.path = a.path := by simp
        rw [← List.singleton_append, addedAt_append, addedAt_of_path hpath]
        simp
      rw [ih h q, hadded]
      by_cases hq : q = placeOf a.path
      · rw [if_pos hq] at hnode
        have hne : a.bytes ++ addedAt q rest ≠ [] := by
          intro hnil
          exact bytes_ne_nil a (List.append_eq_nil_iff.1 hnil).1
        rw [if_pos hq.symm, if_neg hne, bytesAt_of_file hnode, hnode]
        by_cases hrest : addedAt q rest = []
        · rw [if_pos hrest, hrest, List.append_nil]
        · rw [if_neg hrest, List.append_assoc]
      · rw [if_neg hq] at hnode
        rw [if_neg (Ne.symm hq), List.nil_append, hnode]
        simp only [bytesAt, hnode]

/-- The lines of the rows of a group, after their header if they start the
file. -/
def linesOf (starts : Bool) : List Record → Bytes
  | [] => []
  | row :: rest =>
    (if starts then Csv.printRecord (Record.header row) else []) ++
      (row :: rest).flatMap Record.line

theorem flatMap_bytes_ofRows (path : String) (starts : Bool) (rows : List Record) :
    (ofRows path starts rows).flatMap Append.bytes = linesOf starts rows := by
  cases rows with
  | nil => rfl
  | cons row rest =>
    have hrest : (rest.map (ofRow path false)).flatMap Append.bytes =
        rest.flatMap Record.line := by
      rw [List.flatMap_map]
      rfl
    rw [ofRows, List.flatMap_cons, hrest]
    show (if starts then _ else []) ++ Record.line row ++ rest.flatMap Record.line = _
    rw [List.append_assoc]
    rfl

theorem linesOf_eq_nil_iff {starts : Bool} {rows : List Record} :
    linesOf starts rows = [] ↔ rows = [] := by
  cases rows with
  | nil => simp [linesOf]
  | cons row rest =>
    have hline : Record.line row ≠ [] := printRecord_ne_nil _
    simp [linesOf, hline]

/-- Rows of one header, whichever of them is asked for it. -/
theorem linesOf_eq {starts : Bool} {rows : List Record} {row : Record} (hrow : row ∈ rows)
    (hsame : ∀ row' ∈ rows, Record.header row' = Record.header row) :
    linesOf starts rows =
      (if starts then Csv.printRecord (Record.header row) else []) ++
        rows.flatMap Record.line := by
  cases rows with
  | nil => cases hrow
  | cons first rest => rw [linesOf, hsame first List.mem_cons_self]

/-- Appends make no directory and take none away. -/
theorem isDirectory_performAll (q : Place) : ∀ (appends : List Append) (t : FileTree),
    (performAll t appends).state.isDirectory q = t.isDirectory q := by
  intro appends
  induction appends with
  | nil => exact fun _ => rfl
  | cons a rest ih =>
    intro t
    unfold performAll
    cases happend : t.append a.path a.bytes with
    | error e => rfl
    | ok t' => exact (ih t').trans (isDirectory_append happend q)

/-- Every fault of an append is one of the system. -/
theorem performAll_error : ∀ {appends : List Append} {t : FileTree} {e : Fault},
    (performAll t appends).result = .error e → ∃ path cause, e = .system path cause := by
  intro appends
  induction appends with
  | nil => exact fun h => nomatch h
  | cons a rest ih =>
    intro t e h
    unfold performAll at h
    cases happend : t.append a.path a.bytes with
    | error cause =>
      simp only [happend, Except.error.injEq] at h
      exact ⟨a.path, cause, h.symm⟩
    | ok t' =>
      simp only [happend] at h
      exact ih h

end Append

/-! ## §3. The files of the groups. -/

namespace Plan

open FileTree

variable {t : FileTree} {base name : String}

theorem fileOfGroup_injective {a b : String} (h : Codec.fileOfGroup a = Codec.fileOfGroup b) :
    a = b := by
  unfold Codec.fileOfGroup at h
  rw [String.ext_iff, String.toList_append, String.toList_append] at h
  exact String.ext (List.append_cancel_right h)

/-- The place of the file of a group. -/
theorem placeOf_fileIn {directory group : String} (hgroup : Path.isPlain group = true) :
    placeOf (fileIn directory group) = placeOf directory ++ [Codec.fileOfGroup group] :=
  placeOf_join directory (Path.isPlain_fileOfGroup hgroup)

theorem group_eq_of_place {directory a b : String} (ha : Path.isPlain a = true)
    (hb : Path.isPlain b = true)
    (h : placeOf (fileIn directory a) = placeOf (fileIn directory b)) : a = b := by
  rw [placeOf_fileIn ha, placeOf_fileIn hb] at h
  have hfile := (List.append_inj' h rfl).2
  injection hfile with hfile
  exact fileOfGroup_injective hfile

theorem addedAt_groupAppends {directory : String} {g : String × List Record} (p : Place) :
    Append.addedAt p (groupAppends t directory g) =
      if placeOf (fileIn directory g.1) = p then
        Append.linesOf (carried t (fileIn directory g.1)).isNone g.2
      else [] := by
  unfold groupAppends
  rw [Append.addedAt_of_path Append.path_of_mem_ofRows, Append.flatMap_bytes_ofRows]

/-- **Every group has a file of its own**: what stands in the place of one is
the group's. -/
theorem flatMap_of_place {α : Type} {directory : String} {groups : GroupRows}
    (hsorted : Dict.Sorted groups) (hplain : ∀ g ∈ groups, Path.isPlain g.1 = true)
    (f : String × List Record → List α) {g : String × List Record} (hg : g ∈ groups) :
    (groups.flatMap fun g' =>
      if placeOf (fileIn directory g'.1) = placeOf (fileIn directory g.1) then f g' else []) =
        f g := by
  induction groups with
  | nil => cases hg
  | cons first rest ih =>
    obtain ⟨hfirst, hrest⟩ := List.pairwise_cons.1 hsorted
    rw [List.flatMap_cons]
    -- A group of another name has another file.
    have hother : ∀ a ∈ first :: rest, ∀ b ∈ first :: rest, a.1 < b.1 →
        placeOf (fileIn directory a.1) ≠ placeOf (fileIn directory b.1) := by
      intro a ha b hb hlt heq
      rw [group_eq_of_place (hplain a ha) (hplain b hb) heq] at hlt
      exact String.lt_irrefl _ hlt
    rcases List.mem_cons.1 hg with rfl | hmem
    · rw [if_pos rfl, List.flatMap_eq_nil_iff.2, List.append_nil]
      intro g' hg'
      have hne := hother g hg g' (List.mem_cons_of_mem _ hg') (hfirst g' hg')
      exact if_neg (Ne.symm hne)
    · have hne := hother first List.mem_cons_self g hg (hfirst g hmem)
      rw [if_neg hne, List.nil_append]
      exact ih hrest (fun x hx => hplain x (List.mem_cons_of_mem _ hx)) hmem

theorem addedAt_groups {directory : String} {groups : GroupRows} (hsorted : Dict.Sorted groups)
    (hplain : ∀ g ∈ groups, Path.isPlain g.1 = true) {g : String × List Record}
    (hg : g ∈ groups) :
    Append.addedAt (placeOf (fileIn directory g.1)) (groups.flatMap (groupAppends t directory)) =
      Append.linesOf (carried t (fileIn directory g.1)).isNone g.2 := by
  simp only [Append.addedAt_flatMap, addedAt_groupAppends]
  exact flatMap_of_place hsorted hplain
    (fun g => Append.linesOf (carried t (fileIn directory g.1)).isNone g.2) hg

theorem addedAt_groups_eq_nil {directory : String} {groups : GroupRows} {p : Place}
    (h : ∀ g ∈ groups, g.2 ≠ [] → placeOf (fileIn directory g.1) ≠ p) :
    Append.addedAt p (groups.flatMap (groupAppends t directory)) = [] := by
  simp only [Append.addedAt_flatMap, addedAt_groupAppends]
  rw [List.flatMap_eq_nil_iff]
  intro g hg
  by_cases hrows : g.2 = []
  · rw [hrows, ite_eq_right_iff]
    exact fun _ => rfl
  · exact if_neg (h g hg hrows)

end Plan

/-! ## §4. The header that was found. -/

/-- **The header that a file carries**: none if there is no file or no
record in it, else the texts of its first record. -/
theorem Plan.existingHeader_ok_iff {t : FileTree} {path : String}
    {found : Option (List String)} :
    Plan.existingHeader t path = .ok found ↔
      (t.openAt path = .error .notFound ∧ found = none) ∨
      ∃ bytes, t.read path = .ok bytes ∧
        ((Csv.rawFields bytes = [] ∧ found = none) ∨
          ∃ h rest, Csv.rawFields bytes = h.map Text.encode :: rest ∧ found = some h) := by
  unfold Plan.existingHeader FileTree.read
  cases hopen : t.openAt path with
  | error e =>
    have hnone : (none : Option (List String)) = found ↔ found = none := eq_comm
    cases e <;> simp [hnone]
  | ok node =>
    cases node with
    | directory => simp [FileTree.contents]
    | file bytes =>
      simp only [FileTree.contents, reduceCtorEq, false_and, false_or, Except.ok.injEq,
        exists_eq_left']
      constructor
      · intro h
        split at h
        · cases h
        · next hnil =>
          injection h with h
          exact .inl ⟨Csv.header_eq_nil_iff.1 hnil, h.symm⟩
        · next header hne hheader =>
          injection h with h
          rcases Csv.header_ok_iff.1 hheader with ⟨-, rfl⟩ | ⟨rest, hrest⟩
          · exact absurd rfl hne
          · exact .inr ⟨header, rest, hrest, h.symm⟩
      · rintro (⟨hnil, rfl⟩ | ⟨h, rest, hrest, rfl⟩)
        · rw [Csv.header_eq_nil_iff.2 hnil]
        · rw [Csv.header_ok_iff.2 (.inr ⟨rest, hrest⟩)]
          cases h with
          | nil => exact absurd rfl (Csv.ne_nil_of_mem_rawFields [] (hrest ▸ List.mem_cons_self))
          | cons c cs => rfl

/-! ## §5. Saves that succeed. -/

/-- The groups of a record are a map in key order: each has one list of rows. -/
def Codec.MapsGroups (codec : Codec) (r : Record) : Prop :=
  ∀ groups, codec.toGroups r = .ok groups → Dict.Sorted groups

open FileTree Plan

variable {t : FileTree} {base : String} {codec : Codec} {r : Record}

theorem saveBelow_ok_iff :
    (saveBelow base codec t r).result = .ok () ↔
      ∃ plan made, Plan.ofRecord t base codec r = .ok plan ∧
        t.makeDirectories plan.directory = (made, .ok ()) ∧
        (Append.performAll made plan.appends).result = .ok () := by
  constructor
  · intro h
    cases hplan : Plan.ofRecord t base codec r with
    | error e => simp only [saveBelow, hplan, reduceCtorEq] at h
    | ok plan =>
      rcases hmade : t.makeDirectories plan.directory with ⟨made, e | ⟨⟨⟩⟩⟩
      · simp only [saveBelow, hplan, Plan.commit, hmade, reduceCtorEq] at h
      · refine ⟨plan, made, rfl, hmade, ?_⟩
        rw [← (saveBelow_of_performAll hplan hmade).1]
        exact h
  · rintro ⟨plan, made, hplan, hmade, hperformed⟩
    rw [(saveBelow_of_performAll hplan hmade).1]
    exact hperformed

/-- What a save that succeeds has found and has left. -/
structure SavedAs (t t' : FileTree) (groups : GroupRows) (directory : String) : Prop where
  fits : ∀ g ∈ groups, GroupFits t directory g
  entity : ∃ base name, Path.isPlain name = true ∧ directory = Path.join base name
  reaches : t'.Reaches directory
  short : ∀ g ∈ groups, g.2 ≠ [] →
    pathFault? (fileIn directory g.1) = none ∧
      ¬ nameLimit < (Codec.fileOfGroup g.1).utf8ByteSize
  files : ∀ g ∈ groups, g.2 ≠ [] →
    t'.node? (placeOf (fileIn directory g.1)) =
      some (.file (t.bytesAt (placeOf (fileIn directory g.1)) ++
        Append.linesOf (carried t (fileIn directory g.1)).isNone g.2))
  others : ∀ q, (∀ g ∈ groups, g.2 ≠ [] → placeOf (fileIn directory g.1) ≠ q) →
    t'.node? q = if q ∈ route directory then some .directory else t.node? q
  directories : ∀ q, t.isDirectory q = true → t'.isDirectory q = true
  /-- No file stood in the way. -/
  clear : ∀ q ∈ route directory, ∀ bytes, t.node? q ≠ some (.file bytes)

theorem exists_groups_of_ok (h : (saveBelow base codec t r).result = .ok ()) :
    ∃ groups directory, codec.toGroups r = .ok groups ∧
      Plan.entityDirectory base r = .ok directory := by
  obtain ⟨plan, -, hplan, -⟩ := saveBelow_ok_iff.1 h
  obtain ⟨groups, hgroups, hdirectory, -⟩ := ofRecord_ok_iff.1 hplan
  exact ⟨groups, plan.directory, hgroups, hdirectory⟩

/-- **A save that succeeds**, place by place. -/
theorem saved_of_saveBelow {groups : GroupRows} {directory : String} (hmaps : codec.MapsGroups r)
    (hgroups : codec.toGroups r = .ok groups)
    (hdirectory : Plan.entityDirectory base r = .ok directory)
    (h : (saveBelow base codec t r).result = .ok ()) :
    SavedAs t (saveBelow base codec t r).state groups directory := by
  obtain ⟨plan, made, hplan, hmade, hperformed⟩ := saveBelow_ok_iff.1 h
  obtain ⟨groups', hgroups', hdirectory', hfits, -, happends⟩ := ofRecord_ok_iff.1 hplan
  obtain rfl : groups = groups' := Except.ok.inj (hgroups.symm.trans hgroups')
  obtain rfl : directory = plan.directory := Except.ok.inj (hdirectory.symm.trans hdirectory')
  obtain ⟨name, hname, hjoin⟩ := exists_name hdirectory
  have hstate := (saveBelow_of_performAll hplan hmade).2
  have hne : plan.directory ≠ "" := hjoin ▸ Path.join_ne_empty hname
  have hgrown : Grown t made := by
    have := makeDirectories_grown t plan.directory
    rwa [hmade] at this
  have hinto := into_of_ofRecord hplan hname hjoin
  have hplain : ∀ g ∈ groups, Path.isPlain g.1 = true := fun g hg => (hfits g hg).plain
  have hnodes := Append.node?_performAll_ok hperformed
  have hreach : made.Reaches plan.directory := makeDirectories_ok hne hmade
  refine ⟨hfits, ⟨base, name, hname, hjoin⟩, ?_, ?_, ?_, ?_, ?_, ?_⟩
  · rw [hstate]
    refine hreach.mono ?_
    intro p hp
    rw [Append.isDirectory_performAll]
    exact hp
  · intro g hg hrows
    obtain ⟨found, hfound, -⟩ := (hfits g hg).rows hrows
    have hfile := Path.isPlain_fileOfGroup (hplain g hg)
    obtain ⟨a, ha, hpath⟩ := exists_append_of_group happends hg hrows
    -- An append that was performed was not blocked.
    have hfree : ¬ made.Blocked (fileIn plan.directory g.1) := by
      intro hblocked
      rw [hjoin] at hreach
      obtain ⟨e, he⟩ := (Append.performAll_error_iff hname hreach hinto).2
        ⟨a, ha, hpath ▸ hblocked⟩
      rw [hperformed] at he
      cases he
    rw [fileIn, hjoin] at hfound hfree ⊢
    refine ⟨(existingHeader_ok hname hfile hfound).1, ?_⟩
    intro hlong
    apply hfree
    left
    rwa [Path.fileName_of_pieces hfile (Path.pieces_join_join hname hfile)]
  · intro g hg hrows
    rw [hstate, hnodes, happends, addedAt_groups (hmaps groups hgroups) hplain hg,
      hgrown.bytesAt, if_neg]
    exact fun hnil => hrows (Append.linesOf_eq_nil_iff.1 hnil)
  · intro q hq
    rw [hstate, hnodes, happends, addedAt_groups_eq_nil hq, if_pos rfl]
    exact node?_makeDirectories hne hmade q
  · intro q hq
    rw [hstate, Append.isDirectory_performAll]
    exact hgrown.isDirectory hq
  · intro q hq bytes hfile
    have hnode := node?_makeDirectories hne hmade q
    rw [if_pos hq, hgrown.node?_eq hfile] at hnode
    cases hnode

/-! ## §6. Saves that are refused. -/

/-- **A save that is refused by anything but the system** changes nothing. -/
theorem saveBelow_refused {e : Fault} (h : (saveBelow base codec t r).result = .error e)
    (hsystem : ∀ path cause, e ≠ .system path cause) :
    (saveBelow base codec t r).state = t ∧
      (saveBelow base codec t r).signals = failureSignals e := by
  cases hplan : Plan.ofRecord t base codec r with
  | error e' =>
    simp only [saveBelow, hplan, Except.error.injEq] at h ⊢
    exact ⟨trivial, by rw [h]⟩
  | ok plan =>
    -- Past the plan only the system can refuse.
    rcases hmade : t.makeDirectories plan.directory with ⟨made, cause | ⟨⟨⟩⟩⟩
    · simp only [saveBelow, hplan, Plan.commit, hmade, Except.error.injEq] at h
      exact absurd h.symm (hsystem _ _)
    · rw [(saveBelow_of_performAll hplan hmade).1] at h
      obtain ⟨path, cause, rfl⟩ := Append.performAll_error h
      exact absurd rfl (hsystem path cause)

end ReportStore

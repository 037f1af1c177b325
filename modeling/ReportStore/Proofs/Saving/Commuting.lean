/-
  ReportStore.Proofs.Saving.Commuting
  ───────────────────────────────────
  **SAVES THAT GO TO DIFFERENT FILES.**

  A save reads the headers of its own files, and adds to them only; what it
  makes besides are directories.  So two saves that have no file in common
  should come to the same in either order, results and tree.

      s then s'   =   s' then s      unless one of them is misled

  The directories are what can come between them.  A save that looks for a
  file on a way that is not open yet does not find it, and begins it anew;
  if the other save goes first, and makes the directory that was missing, the
  file is found.  A base such as `new/../out` is such a way.
-/
import ReportStore.Proofs.Saving.Entities
import ReportStore.Proofs.Saving.Extend

namespace ReportStore

open FileTree Plan

/-! ## §1. What is found at a path. -/

namespace Plan

variable {t t' : FileTree} {path : String}

/-- **What looking for a header comes to**: the file is missing, the system
refuses, or there are bytes to read it from. -/
theorem existingHeader_cases (t : FileTree) (path : String) :
    t.openAt path = .error .notFound ∨
      (∃ cause, existingHeader t path = .error (.system path cause)) ∨
      ∃ bytes, t.read path = .ok bytes := by
  unfold existingHeader FileTree.read
  cases hopen : t.openAt path with
  | error e =>
    by_cases hmissing : e = .notFound
    · exact .inl (by rw [hmissing])
    · refine .inr (.inl ⟨e, ?_⟩)
      cases e <;> simp_all
  | ok node =>
    cases node with
    | directory => exact .inr (.inl ⟨.isDirectory, rfl⟩)
    | file bytes => exact .inr (.inr ⟨bytes, rfl⟩)

theorem existingHeader_of_notFound (h : t.openAt path = .error .notFound) :
    existingHeader t path = .ok none :=
  existingHeader_ok_iff.2 (.inl ⟨h, rfl⟩)

/-- A header depends on the bytes of its file only. -/
theorem existingHeader_of_read {bytes : Bytes} (h : t.read path = .ok bytes)
    (h' : t'.read path = .ok bytes) : existingHeader t' path = existingHeader t path := by
  have hopen : ∀ u : FileTree, u.read path = .ok bytes → u.openAt path = .ok (.file bytes) := by
    intro u hu
    unfold FileTree.read at hu
    cases hopen : u.openAt path with
    | error e => simp only [hopen, reduceCtorEq] at hu
    | ok node =>
      cases node with
      | directory => simp only [hopen, contents, reduceCtorEq] at hu
      | file bytes' =>
        simp only [hopen, contents, Except.ok.injEq] at hu
        rw [hu]
  unfold existingHeader
  rw [hopen t h, hopen t' h']

end Plan

/-- A file of an entity that can be read stays so, as long as directories
stay directories. -/
theorem FileTree.read_mono {t t' : FileTree} {base name file : String} {bytes bytes' : Bytes}
    (hname : Path.isPlain name = true) (hfile : Path.isPlain file = true)
    (hdirs : ∀ q, t.isDirectory q = true → t'.isDirectory q = true)
    (h : t.read (Path.join (Path.join base name) file) = .ok bytes)
    (hnode : t'.node? (placeOf (Path.join (Path.join base name) file)) = some (.file bytes')) :
    t'.read (Path.join (Path.join base name) file) = .ok bytes' := by
  obtain ⟨hlocate, -⟩ := read_ok_iff.1 h
  have hreach := reaches_of_locate hname hfile hlocate
  have hfault := fault_of_locate hlocate
  refine read_of_node? hname hfile hfault ?_ (hreach.mono hdirs) hnode
  intro hlong
  obtain ⟨d, hd, hdir⟩ := hreach
  unfold FileTree.read at h
  rw [openAt_below hname hfile hfault, hd] at h
  simp only [hdir, if_true, if_pos hlong, reduceCtorEq] at h

theorem Plan.eq_of_appends {p p' : Plan} (hdirectory : p.directory = p'.directory)
    (happends : p.appends = p'.appends) : p = p' := by
  obtain ⟨directory, appends⟩ := p
  obtain rfl : directory = p'.directory := hdirectory
  obtain rfl : appends = p'.appends := happends
  rfl

/-- With rows, the lines tell whether a header is among them. -/
theorem Append.linesOf_injective {starts starts' : Bool} {rows : List Record} (hrows : rows ≠ [])
    (h : linesOf starts rows = linesOf starts' rows) : starts = starts' := by
  cases rows with
  | nil => exact absurd rfl hrows
  | cons row rest =>
    have hheader := List.length_pos_iff.2 (printRecord_ne_nil (Record.header row))
    have hlength := congrArg List.length h
    cases starts <;> cases starts' <;>
      simp only [linesOf, if_true, Bool.false_eq_true, if_false, List.length_append,
        List.length_nil] at hlength ⊢ <;> omega

/-! ## §2. One save. -/

/-- A save that is to be made: a record, in the form of a codec, below a base. -/
structure Save where
  base : String
  codec : Codec
  record : Record

namespace Save

/-- What is planned for the save in a tree. -/
def plan (s : Save) (t : FileTree) : Except Fault Plan := Plan.ofRecord t s.base s.codec s.record

/-- What the save comes to in a tree. -/
def on (s : Save) (t : FileTree) : Outcome FileTree Unit := saveBelow s.base s.codec t s.record

/-- The paths of the group files that a save has rows for. -/
def Writes (s : Save) (path : String) : Prop :=
  ∃ groups directory, s.codec.toGroups s.record = .ok groups ∧
    Plan.entityDirectory s.base s.record = .ok directory ∧
    ∃ g ∈ groups, g.2 ≠ [] ∧ Path.isPlain g.1 = true ∧ path = fileIn directory g.1

/-- The system refuses nothing. -/
def Served (s : Save) (t : FileTree) : Prop :=
  ∀ path cause, (s.on t).result ≠ .error (.system path cause)

variable {s s' : Save} {t t' : FileTree} {p : Plan}

/-- A file of a save, taken apart. -/
theorem Writes.exists_names {path : String} (h : s.Writes path) :
    ∃ base name file, Path.isPlain name = true ∧ Path.isPlain file = true ∧
      path = Path.join (Path.join base name) file := by
  obtain ⟨groups, directory, -, hdirectory, g, -, -, hplain, rfl⟩ := h
  obtain ⟨name, hname, rfl⟩ := exists_name hdirectory
  exact ⟨s.base, name, _, hname, Path.isPlain_fileOfGroup hplain, rfl⟩

/-- **A save that the system refuses nothing** comes to what its plan does. -/
theorem Served.result_eq (h : s.Served t) : (s.on t).result = (s.plan t).map fun _ => () := by
  cases hplan : s.plan t with
  | error e =>
    unfold plan at hplan
    simp only [on, saveBelow, hplan]
    rfl
  | ok p =>
    cases hresult : (s.on t).result with
    | ok u => rfl
    | error e =>
      -- A fault that is not of the system is one of planning.
      unfold plan at hplan
      unfold Served at h
      unfold on at h hresult
      rcases hmade : t.makeDirectories p.directory with ⟨made, cause | ⟨⟨⟩⟩⟩
      · have hfault : (saveBelow s.base s.codec t s.record).result =
            .error (.system p.directory cause) := by
          simp only [saveBelow, hplan, Plan.commit, hmade]
        exact absurd hfault (h _ _)
      · have hperformed := (saveBelow_of_performAll hplan hmade).1
        rw [hresult] at hperformed
        obtain ⟨path, cause, rfl⟩ := Append.performAll_error hperformed.symm
        exact absurd hresult (h path cause)

theorem state_of_plan_error {e : Fault} (hplan : s.plan t = .error e) : (s.on t).state = t := by
  unfold plan at hplan
  simp only [on, saveBelow, hplan]

theorem Served.result_of_plan (h : s.Served t) (hplan : s.plan t = .ok p) :
    (s.on t).result = .ok () := by
  rw [h.result_eq, hplan]
  rfl

/-- **What a planned save leaves**, place by place. -/
theorem node?_on (h : s.Served t) (hplan : s.plan t = .ok p) (q : Place) :
    (s.on t).state.node? q =
      if Append.addedAt q p.appends = [] then
        if q ∈ route p.directory then some .directory else t.node? q
      else some (.file (t.bytesAt q ++ Append.addedAt q p.appends)) := by
  obtain ⟨p', made, hplan', hmade, hperformed⟩ := saveBelow_ok_iff.1 (h.result_of_plan hplan)
  obtain rfl : p = p' := Except.ok.inj (hplan.symm.trans hplan')
  obtain ⟨groups, -, hdirectory, -⟩ := ofRecord_ok_iff.1 hplan'
  obtain ⟨name, hname, hjoin⟩ := exists_name hdirectory
  have hne : p.directory ≠ "" := hjoin ▸ Path.join_ne_empty hname
  have hgrown : Grown t made := by
    have := makeDirectories_grown t p.directory
    rwa [hmade] at this
  unfold on
  rw [(saveBelow_of_performAll hplan' hmade).2, Append.node?_performAll_ok hperformed,
    hgrown.bytesAt]
  simp only [node?_makeDirectories hne hmade q]

/-- What a save adds, it adds to its files. -/
theorem addedAt_eq_nil {q : Place} (hplan : s.plan t = .ok p)
    (hq : ∀ path, s.Writes path → placeOf path ≠ q) : Append.addedAt q p.appends = [] := by
  obtain ⟨groups, hgroups, hdirectory, hfits, -, happends⟩ := ofRecord_ok_iff.1 hplan
  rw [happends]
  refine addedAt_groups_eq_nil ?_
  intro g hg hrows
  exact hq _ ⟨groups, p.directory, hgroups, hdirectory, g, hg, hrows, (hfits g hg).plain, rfl⟩

/-- No save takes a directory away. -/
theorem isDirectory_on (hmaps : s.codec.MapsGroups s.record) (h : s.Served t) (q : Place)
    (hq : t.isDirectory q = true) : (s.on t).state.isDirectory q = true := by
  cases hplan : s.plan t with
  | error e => rwa [state_of_plan_error hplan]
  | ok p =>
    obtain ⟨groups, directory, hgroups, hdirectory⟩ :=
      exists_groups_of_ok (h.result_of_plan hplan)
    exact (saved_of_saveBelow hmaps hgroups hdirectory (h.result_of_plan hplan)).directories q hq

/-- **A save leaves every file as it is that is none of its own**, and makes
no other. -/
theorem file_elsewhere (hmaps : s.codec.MapsGroups s.record) (h : s.Served t) {q : Place}
    (hq : ∀ path, s.Writes path → placeOf path ≠ q) (bytes : Bytes) :
    (s.on t).state.node? q = some (.file bytes) ↔ t.node? q = some (.file bytes) := by
  cases hplan : s.plan t with
  | error e => rw [state_of_plan_error hplan]
  | ok p =>
    have hresult := h.result_of_plan hplan
    obtain ⟨groups, directory, hgroups, hdirectory⟩ := exists_groups_of_ok hresult
    have hclear := (saved_of_saveBelow hmaps hgroups hdirectory hresult).clear
    obtain rfl := Plan.directory_eq hplan hdirectory
    rw [node?_on h hplan, if_pos (addedAt_eq_nil hplan hq)]
    by_cases hroute : q ∈ route p.directory
    · -- No file is on the way to the directory, before or after.
      rw [if_pos hroute]
      exact ⟨nofun, fun hfile => absurd hfile (hclear q hroute bytes)⟩
    · rw [if_neg hroute]

theorem bytesAt_elsewhere (hmaps : s.codec.MapsGroups s.record) (h : s.Served t) {q : Place}
    (hq : ∀ path, s.Writes path → placeOf path ≠ q) :
    (s.on t).state.bytesAt q = t.bytesAt q := by
  have hiff := file_elsewhere hmaps h hq
  unfold FileTree.bytesAt
  split
  · next bytes hfile => rw [(hiff bytes).1 hfile]
  · next hnone =>
    split
    · next bytes hfile => exact absurd ((hiff bytes).2 hfile) (hnone bytes)
    · rfl

/-! ## §3. Two saves. -/

/-- Two saves that have no file in common. -/
def Apart (s s' : Save) : Prop :=
  ∀ path path', s.Writes path → s'.Writes path' → placeOf path ≠ placeOf path'

/-- The system refuses nothing, in whichever order two saves are made. -/
structure Undisturbed (t : FileTree) (s s' : Save) : Prop where
  first : s.Served t
  second : s'.Served t
  firstAfter : s.Served (s'.on t).state
  secondAfter : s'.Served (s.on t).state

/-- Two saves that come to the same in either order. -/
structure Commute (t : FileTree) (s s' : Save) : Prop where
  first : (s.on (s'.on t).state).result = (s.on t).result
  second : (s'.on (s.on t).state).result = (s'.on t).result
  tree : ∀ q, (s'.on (s.on t).state).state.node? q = (s.on (s'.on t).state).state.node? q

/-- A save that is planned otherwise in a later tree, for it finds a file
that it missed before, although the file was there, with a record in it. -/
def Misled (s : Save) (t t' : FileTree) : Prop :=
  s.plan t' ≠ s.plan t ∧
    ∃ path bytes, s.Writes path ∧ t.openAt path = .error .notFound ∧
      t.node? (placeOf path) = some (.file bytes) ∧ Csv.rawFields bytes ≠ [] ∧
      t'.read path = .ok bytes

theorem Apart.symm (h : s.Apart s') : s'.Apart s :=
  fun path path' hpath hpath' => Ne.symm (h path' path hpath' hpath)

theorem Undisturbed.symm (h : Undisturbed t s s') : Undisturbed t s' s :=
  ⟨h.second, h.first, h.secondAfter, h.firstAfter⟩

theorem Commute.symm (h : Commute t s s') : Commute t s' s :=
  ⟨h.second, h.first, fun q => (h.tree q).symm⟩

/-- **Only a file that turns up makes a save another**: a file that was found
at first is found again, with the same bytes. -/
theorem misled_of_plan_ne (hmaps' : s'.codec.MapsGroups s'.record) (hapart : s.Apart s')
    (hund : Undisturbed t s s') (hne : s.plan (s'.on t).state ≠ s.plan t) :
    s.Misled t (s'.on t).state := by
  obtain ⟨groups, directory, hgroups, hdirectory, g, hg, hrows, hplain, hheader, hfault⟩ :=
    ofRecord_ne hne
  have hwrites : s.Writes (fileIn directory g.1) :=
    ⟨groups, directory, hgroups, hdirectory, g, hg, hrows, hplain, rfl⟩
  generalize fileIn directory g.1 = path at *
  have hfile := file_elsewhere hmaps' hund.second fun path' hpath' =>
    Ne.symm (hapart path path' hwrites hpath')
  -- A fault of the system would have been that of the save.
  have hsystem : ∀ u, u = t ∨ u = (s'.on t).state → s.Served u →
      ∀ cause, existingHeader u path ≠ .error (.system path cause) := by
    intro u hu hserved cause he
    have hplan : s.plan u = .error (.system path cause) := hfault u hu _ he
    have hresult := hserved.result_eq
    rw [hplan] at hresult
    exact hserved path cause hresult
  have hfound := existingHeader_cases (s'.on t).state path
  rcases existingHeader_cases t path with hmissing | ⟨cause, he⟩ | ⟨bytes, hread⟩
  · rw [existingHeader_of_notFound hmissing] at hheader
    rcases hfound with hmissing' | ⟨cause, he⟩ | ⟨bytes, hread⟩
    · exact absurd (existingHeader_of_notFound hmissing') hheader
    · exact absurd he (hsystem _ (.inr rfl) hund.firstAfter cause)
    · refine ⟨hne, path, bytes, hwrites, hmissing, (hfile bytes).1 (node?_of_read hread), ?_, hread⟩
      exact fun hnil => hheader (existingHeader_ok_iff.2 (.inr ⟨bytes, hread, .inl ⟨hnil, rfl⟩⟩))
  · exact absurd he (hsystem _ (.inl rfl) hund.first cause)
  · -- A file that was found is found again.
    obtain ⟨base, name, file, hname, hfile', rfl⟩ := hwrites.exists_names
    have hread' := read_mono hname hfile' (isDirectory_on hmaps' hund.second) hread
      ((hfile bytes).2 (node?_of_read hread))
    exact absurd (existingHeader_of_read hread hread') hheader

/-- Plans that differ are for other results, or add other bytes to a file. -/
theorem exists_addedAt_ne {p' : Plan} (hmaps : s.codec.MapsGroups s.record)
    (hplan : s.plan t = .ok p) (hplan' : s.plan t' = .ok p') (hne : p ≠ p') :
    ∃ path, s.Writes path ∧
      Append.addedAt (placeOf path) p.appends ≠ Append.addedAt (placeOf path) p'.appends ∧
      Append.addedAt (placeOf path) p.appends ≠ [] ∧
      Append.addedAt (placeOf path) p'.appends ≠ [] := by
  obtain ⟨groups, hgroups, hdirectory, hfits, -, happends⟩ := ofRecord_ok_iff.1 hplan
  obtain ⟨groups', hgroups', hdirectory', -, -, happends'⟩ := ofRecord_ok_iff.1 hplan'
  obtain rfl : groups = groups' := Except.ok.inj (hgroups.symm.trans hgroups')
  have hsame : p.directory = p'.directory := Except.ok.inj (hdirectory.symm.trans hdirectory')
  rw [← hsame] at happends'
  have hplain : ∀ g ∈ groups, Path.isPlain g.1 = true := fun g hg => (hfits g hg).plain
  -- Some group is planned with its header in one tree, and without it in the other.
  obtain ⟨g, hg, hdiffer⟩ : ∃ g ∈ groups,
      groupAppends t p.directory g ≠ groupAppends t' p.directory g := by
    by_contra hnone
    have hall : ∀ g ∈ groups,
        groupAppends t p.directory g = groupAppends t' p.directory g := by
      intro g hg
      by_contra hg'
      exact hnone ⟨g, hg, hg'⟩
    have hequal : p.appends = p'.appends := by
      rw [happends, happends', List.flatMap_def, List.flatMap_def, List.map_congr_left hall]
    exact hne (Plan.eq_of_appends hsame hequal)
  have hrows : g.2 ≠ [] := by
    intro hnil
    unfold groupAppends at hdiffer
    rw [hnil] at hdiffer
    exact hdiffer rfl
  refine ⟨fileIn p.directory g.1,
    ⟨groups, p.directory, hgroups, hdirectory, g, hg, hrows, hplain g hg, rfl⟩, ?_⟩
  rw [happends, happends', addedAt_groups (hmaps groups hgroups) hplain hg,
    addedAt_groups (hmaps groups hgroups) hplain hg]
  refine ⟨?_, mt Append.linesOf_eq_nil_iff.1 hrows, mt Append.linesOf_eq_nil_iff.1 hrows⟩
  intro hlines
  apply hdiffer
  unfold groupAppends
  rw [Append.linesOf_injective hrows hlines]

/-- **A save that is planned otherwise does not commute**: its result is
another, or the file that it began anew has other bytes. -/
theorem not_commute_of_plan_ne (hmaps : s.codec.MapsGroups s.record)
    (hmaps' : s'.codec.MapsGroups s'.record) (hapart : s.Apart s') (hund : Undisturbed t s s')
    (hne : s.plan (s'.on t).state ≠ s.plan t) : ¬ Commute t s s' := by
  intro hcommute
  have hresult := hcommute.first
  rw [hund.first.result_eq, hund.firstAfter.result_eq] at hresult
  cases hplan : s.plan t with
  | error e =>
    cases hplan' : s.plan (s'.on t).state with
    | error e' =>
      rw [hplan, hplan'] at hresult hne
      injection hresult with he
      exact hne (by rw [he])
    | ok p' =>
      rw [hplan, hplan'] at hresult
      cases hresult
  | ok p =>
    cases hplan' : s.plan (s'.on t).state with
    | error e' =>
      rw [hplan, hplan'] at hresult
      cases hresult
    | ok p' =>
      have hplans : p ≠ p' := fun h => hne (by rw [hplan, hplan', h])
      obtain ⟨path, hwrites, hdiffer, hadds, hadds'⟩ :=
        exists_addedAt_ne hmaps hplan hplan' hplans
      have hq : ∀ path', s'.Writes path' → placeOf path' ≠ placeOf path :=
        fun path' hpath' => Ne.symm (hapart path path' hwrites hpath')
      -- The other save leaves the file alone, be it made before or after.
      have hfirst := node?_on hund.first hplan (placeOf path)
      have hlast := node?_on hund.firstAfter hplan' (placeOf path)
      rw [if_neg hadds] at hfirst
      rw [if_neg hadds', bytesAt_elsewhere hmaps' hund.second hq] at hlast
      have hkept := (file_elsewhere hmaps' hund.secondAfter hq _).2 hfirst
      rw [hcommute.tree, hlast] at hkept
      simp only [Option.some.injEq, Node.file.injEq, List.append_cancel_left_eq] at hkept
      exact hdiffer hkept.symm

/-- Where one of two saves adds something, it leaves the same in either
order. -/
theorem node?_comm_of_added (hmaps' : s'.codec.MapsGroups s'.record) (hapart : s.Apart s')
    (hund : Undisturbed t s s') (hsame : s.plan (s'.on t).state = s.plan t)
    (hplan : s.plan t = .ok p) {q : Place} (hadds : Append.addedAt q p.appends ≠ []) :
    (s'.on (s.on t).state).state.node? q = (s.on (s'.on t).state).state.node? q := by
  have hq : ∀ path', s'.Writes path' → placeOf path' ≠ q := by
    rintro path' hpath' rfl
    exact hadds (addedAt_eq_nil hplan fun path hpath => hapart path path' hpath hpath')
  have hfirst := node?_on hund.first hplan q
  rw [if_neg hadds] at hfirst
  rw [(file_elsewhere hmaps' hund.secondAfter hq _).2 hfirst,
    node?_on hund.firstAfter (hsame.trans hplan), if_neg hadds,
    bytesAt_elsewhere hmaps' hund.second hq]

/-- Saves that are planned as before lead to one tree. -/
theorem node?_comm (hmaps : s.codec.MapsGroups s.record)
    (hmaps' : s'.codec.MapsGroups s'.record) (hapart : s.Apart s') (hund : Undisturbed t s s')
    (hsame : s.plan (s'.on t).state = s.plan t) (hsame' : s'.plan (s.on t).state = s'.plan t)
    (q : Place) :
    (s'.on (s.on t).state).state.node? q = (s.on (s'.on t).state).state.node? q := by
  cases hplan : s.plan t with
  | error e => rw [state_of_plan_error hplan, state_of_plan_error (hsame.trans hplan)]
  | ok p =>
    cases hplan' : s'.plan t with
    | error e => rw [state_of_plan_error hplan', state_of_plan_error (hsame'.trans hplan')]
    | ok p' =>
      by_cases hadds : Append.addedAt q p.appends = []
      · by_cases hadds' : Append.addedAt q p'.appends = []
        · -- Neither adds anything here: what is new is a directory of either.
          rw [node?_on hund.secondAfter (hsame'.trans hplan'), node?_on hund.first hplan,
            node?_on hund.firstAfter (hsame.trans hplan), node?_on hund.second hplan']
          simp only [if_pos hadds, if_pos hadds']
          by_cases hroute : q ∈ route p.directory
          · simp only [if_pos hroute, ite_self]
          · simp only [if_neg hroute]
        · exact (node?_comm_of_added hmaps hapart.symm hund.symm hsame' hplan' hadds').symm
      · exact node?_comm_of_added hmaps' hapart hund hsame hplan hadds

/-- **Saves to different files commute iff neither is misled.**  For every
tree and any two saves, each with its base, its codec and its record, that
have no file in common and that the system does not disturb: in either order
each of them comes to the same result, and the tree is the same in the end;
unless one of them, made after the other, finds a file with a record that was
there before, but missing on the way by which it is looked for, and is
planned otherwise for it. -/
theorem commute_iff (hmaps : s.codec.MapsGroups s.record)
    (hmaps' : s'.codec.MapsGroups s'.record) (hapart : s.Apart s')
    (hund : Undisturbed t s s') :
    Commute t s s' ↔ ¬ s.Misled t (s'.on t).state ∧ ¬ s'.Misled t (s.on t).state := by
  constructor
  · intro hcommute
    refine ⟨?_, ?_⟩
    · exact fun hmisled => not_commute_of_plan_ne hmaps hmaps' hapart hund hmisled.1 hcommute
    · exact fun hmisled =>
        not_commute_of_plan_ne hmaps' hmaps hapart.symm hund.symm hmisled.1 hcommute.symm
  · rintro ⟨hclear, hclear'⟩
    have hsame : s.plan (s'.on t).state = s.plan t := by
      by_contra hne
      exact hclear (misled_of_plan_ne hmaps' hapart hund hne)
    have hsame' : s'.plan (s.on t).state = s'.plan t := by
      by_contra hne
      exact hclear' (misled_of_plan_ne hmaps hapart.symm hund.symm hne)
    refine ⟨?_, ?_, node?_comm hmaps hmaps' hapart hund hsame hsame'⟩
    · rw [hund.first.result_eq, hund.firstAfter.result_eq, hsame]
    · rw [hund.second.result_eq, hund.secondAfter.result_eq, hsame']

/-! ## §4. Two saves in one directory, and two behind a detour. -/

/-- The file of a save of one group. -/
theorem Writes.eq_of_group {path directory group : String} {rows : List Record} (h : s.Writes path)
    (hgroups : s.codec.toGroups s.record = .ok [(group, rows)])
    (hdirectory : Plan.entityDirectory s.base s.record = .ok directory) :
    path = fileIn directory group := by
  obtain ⟨groups, directory', hgroups', hdirectory', g, hg, -, -, rfl⟩ := h
  obtain rfl : groups = [(group, rows)] := Except.ok.inj (hgroups'.symm.trans hgroups)
  obtain rfl : directory' = directory := Except.ok.inj (hdirectory'.symm.trans hdirectory)
  rw [List.mem_singleton.1 hg]

theorem served_of_isOk (h : (s.on t).result.isOk = true) : s.Served t := by
  intro path cause hfault
  rw [hfault] at h
  cases h

/-- A counter report of the entity of `laterReport`, of one group. -/
def oneGroup : Record :=
  [("groups", .map [("a", .map [("0", .map [("0", .map [("e", .int 1)])])])]),
    ("sensor", .text "s"), ("target", .text "t"), ("timestamp", .int 1)]

/-- Two saves of different codecs that share the directory of their entity. -/
theorem commute_oneEntity :
    Codec.power.MapsGroups laterReport ∧ Codec.counters.MapsGroups oneGroup ∧
      Apart ⟨"out", .power, laterReport⟩ ⟨"out", .counters, oneGroup⟩ ∧
      Undisturbed oneReport ⟨"out", .power, laterReport⟩ ⟨"out", .counters, oneGroup⟩ ∧
      Commute oneReport ⟨"out", .power, laterReport⟩ ⟨"out", .counters, oneGroup⟩ := by
  have hmaps : Codec.counters.MapsGroups oneGroup := by
    intro groups h
    have hgroups : Codec.counters.toGroups oneGroup = .ok [("a", _)] := rfl
    rw [hgroups] at h
    injection h with h
    rw [← h]
    exact List.pairwise_singleton _ _
  have hapart : Apart ⟨"out", .power, laterReport⟩ ⟨"out", .counters, oneGroup⟩ := by
    intro path path' hpath hpath'
    rw [hpath.eq_of_group rfl rfl, hpath'.eq_of_group rfl rfl]
    decide +kernel
  have hund : Undisturbed oneReport ⟨"out", .power, laterReport⟩ ⟨"out", .counters, oneGroup⟩ :=
    ⟨served_of_isOk (by decide +kernel), served_of_isOk (by decide +kernel),
      served_of_isOk (by decide +kernel), served_of_isOk (by decide +kernel)⟩
  refine ⟨mapsGroups_power _, hmaps, hapart, hund, ?_⟩
  refine (commute_iff (mapsGroups_power _) hmaps hapart hund).2 ⟨?_, ?_⟩
  · rintro ⟨hne, -⟩
    exact hne (by rfl)
  · rintro ⟨hne, -⟩
    exact hne (by rfl)

/-- Two entities, each with a file of one row. -/
def twoReports : FileTree :=
  ⟨(["out", "s-u", "PowerReport.csv"], .file (Text.encode
      "timestamp,sensor,target,socket,cpu,power\n1,s,u,0,0,5\n")) ::
    (["out", "s-u"], .directory) :: oneReport.entries⟩

/-- A report for the other of these files. -/
def neighbourReport : Record :=
  [("power", .int 7), ("sensor", .text "s"), ("target", .text "u"), ("timestamp", .int 2)]

/-- **Behind a detour the order counts**: the save that goes first makes the
directory that was missing, and begins its file a second time; the other one
finds its file. -/
theorem not_commute_detour :
    Codec.power.MapsGroups laterReport ∧ Codec.power.MapsGroups neighbourReport ∧
      Apart ⟨"new/../out", .power, laterReport⟩ ⟨"new/../out", .power, neighbourReport⟩ ∧
      Undisturbed twoReports ⟨"new/../out", .power, laterReport⟩
        ⟨"new/../out", .power, neighbourReport⟩ ∧
      ¬ Commute twoReports ⟨"new/../out", .power, laterReport⟩
        ⟨"new/../out", .power, neighbourReport⟩ := by
  have hapart :
      Apart ⟨"new/../out", .power, laterReport⟩ ⟨"new/../out", .power, neighbourReport⟩ := by
    intro path path' hpath hpath'
    rw [hpath.eq_of_group rfl rfl, hpath'.eq_of_group rfl rfl]
    decide +kernel
  have hund : Undisturbed twoReports ⟨"new/../out", .power, laterReport⟩
      ⟨"new/../out", .power, neighbourReport⟩ :=
    ⟨served_of_isOk (by decide +kernel), served_of_isOk (by decide +kernel),
      served_of_isOk (by decide +kernel), served_of_isOk (by decide +kernel)⟩
  refine ⟨mapsGroups_power _, mapsGroups_power _, hapart, hund, ?_⟩
  refine not_commute_of_plan_ne (mapsGroups_power _) (mapsGroups_power _) hapart hund ?_
  -- The header of the file is planned at first, and not after the other save.
  intro hsame
  have hheaders := congrArg
    (fun planned => planned.toOption.map fun p => p.appends.map (·.startsFile)) hsame
  exact absurd hheaders (by decide +kernel)

end Save

end ReportStore

/-
  ReportStore.Proofs.Saving.Plan
  ──────────────────────────────
  **WHAT A PLAN LOOKS AT.**

  A plan is made for a directory with a plain name below the base, and for
  plainly named files in it.  A file that was looked at for its header could
  be opened, or something on the way to it was missing; and of the tree no
  more than that header makes a difference.
-/
import ReportStore.Saving.Plan
import ReportStore.Proofs.FileTree

namespace ReportStore.Plan

variable {t : FileTree} {base : String}

/-! ## §1. Names. -/

theorem nameField_ok {r : Record} {field name : String} (h : nameField r field = .ok name) :
    Codec.scalarCell r field = .ok name ∧ Path.isPlain name = true := by
  unfold nameField at h
  cases hcell : Codec.scalarCell r field with
  | error e => simp [hcell] at h
  | ok cell =>
    simp only [hcell] at h
    split at h
    · next hplain =>
      injection h with h
      subst h
      exact ⟨rfl, hplain⟩
    · cases h

theorem entityDirectory_ok {r : Record} {directory : String}
    (h : entityDirectory base r = .ok directory) :
    ∃ sensor target, nameField r "sensor" = .ok sensor ∧ nameField r "target" = .ok target ∧
      directory = Path.join base (sensor ++ "-" ++ target) := by
  unfold entityDirectory at h
  cases hsensor : nameField r "sensor" with
  | error e => simp [hsensor] at h
  | ok sensor =>
    cases htarget : nameField r "target" with
    | error e => simp [hsensor, htarget] at h
    | ok target =>
      simp only [hsensor, htarget, Except.ok.injEq] at h
      exact ⟨sensor, target, rfl, rfl, h.symm⟩

/-- An entity is a plain name below the base. -/
theorem exists_name {r : Record} {directory : String}
    (h : entityDirectory base r = .ok directory) :
    ∃ name, Path.isPlain name = true ∧ directory = Path.join base name := by
  obtain ⟨sensor, target, hsensor, htarget, hdirectory⟩ := entityDirectory_ok h
  exact ⟨_, Path.isPlain_entity (nameField_ok hsensor).2 (nameField_ok htarget).2, hdirectory⟩

theorem groupPath_ok {directory group path : String} (h : groupPath directory group = .ok path) :
    ∃ file, Path.isPlain file = true ∧ path = Path.join directory file := by
  unfold groupPath at h
  split at h
  · next hplain =>
    injection h with h
    exact ⟨_, Path.isPlain_fileOfGroup hplain, h.symm⟩
  · cases h

/-! ## §2. What was found out. -/

/-- **A file that was looked at**: something on the way to its directory is
missing, or an append to it is possible. -/
theorem existingHeader_ok {name file : String} (hname : Path.isPlain name = true)
    (hfile : Path.isPlain file = true) {found : Option (List String)}
    (h : existingHeader t (Path.join (Path.join base name) file) = .ok found) :
    FileTree.pathFault? (Path.join (Path.join base name) file) = none ∧
    (t.locate (Path.join base name) = .error .notFound ∨
      ∃ d, t.locate (Path.join base name) = .ok d ∧ t.isDirectory d = true ∧
        ¬ FileTree.nameLimit < file.utf8ByteSize ∧ t.isDirectory (d ++ [file]) = false) := by
  unfold existingHeader at h
  have hfault : FileTree.pathFault? (Path.join (Path.join base name) file) = none := by
    cases hf : FileTree.pathFault? (Path.join (Path.join base name) file) with
    | none => rfl
    | some e =>
      have hne : e ≠ .notFound := by
        rintro rfl
        exact FileTree.pathFault?_below_ne_notFound hname hfile hf
      -- A fault of the path itself is no missing file, so it is passed on.
      have hopen : t.openAt (Path.join (Path.join base name) file) = .error e := by
        simp only [FileTree.openAt, FileTree.locate, hf]
      rw [hopen] at h
      cases e <;> simp_all
  refine ⟨hfault, ?_⟩
  rw [FileTree.openAt_below hname hfile hfault] at h
  cases hd : t.locate (Path.join base name) with
  | error e =>
    left
    -- Of the faults on the way only a missing name is taken for a new file.
    rw [hd] at h
    cases e <;> simp_all
  | ok d =>
    right
    simp only [hd] at h
    refine ⟨d, rfl, ?_⟩
    by_cases hdir : t.isDirectory d = true
    · by_cases hsize : FileTree.nameLimit < file.utf8ByteSize
      · simp [hdir, hsize] at h
      · refine ⟨hdir, hsize, ?_⟩
        -- A directory in the place of the file could be opened, but not read.
        unfold FileTree.isDirectory
        cases hnode : t.node? (d ++ [file]) with
        | none => rfl
        | some n =>
          cases n with
          | directory => simp [hdir, hsize, hnode, FileTree.contents] at h
          | file bytes => rfl
    · simp [hdir] at h

/-- Rows are planned the same where the header of their file is. -/
theorem planRows_congr {t' : FileTree} {path : String}
    (h : existingHeader t' path = existingHeader t path) :
    ∀ (rows : List Record) (agreed : Option (List String)),
      planRows t' path agreed rows = planRows t path agreed rows := by
  intro rows
  induction rows with
  | nil => exact fun _ => rfl
  | cons row rest ih =>
    intro agreed
    have hrow : planRow t' path agreed row = planRow t path agreed row := by
      unfold planRow
      rw [h]
    unfold planRows
    rw [hrow]
    cases planRow t path agreed row with
    | error e => rfl
    | ok a => simp only [ih]

end ReportStore.Plan

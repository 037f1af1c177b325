/-
  ReportStore.Proofs.Saving.Commit
  ────────────────────────────────
  **PERFORMING A PLAN, ONE APPEND AFTER THE OTHER.**

  The appends of a plan go to files of one directory, which is made first.
  Whether one of them is refused is decided by the tree as it is then: the
  name of the file is too long, or a directory stands in its place.  No
  append changes that for another, and none takes a byte away.
-/
import ReportStore.Saving.Commit
import ReportStore.Proofs.Saving.Rows

namespace ReportStore

/-! ## §1. What can refuse an append. -/

namespace FileTree

/-- No row can be appended at a path whose directory is there: the name is
too long, or a directory stands in the place of the file. -/
def Blocked (t : FileTree) (path : String) : Prop :=
  nameLimit < (Path.fileName path).utf8ByteSize ∨ t.isDirectory (placeOf path) = true

variable {t t' : FileTree}

theorem blocked_append {path path' : String} {bytes : Bytes}
    (happend : t.append path' bytes = .ok t') : t'.Blocked path ↔ t.Blocked path := by
  unfold Blocked
  rw [isDirectory_append happend]

/-- **An append below a directory fails iff it is blocked.** -/
theorem append_error_iff {base name file : String} (hname : Path.isPlain name = true)
    (hfile : Path.isPlain file = true)
    (hfault : pathFault? (Path.join (Path.join base name) file) = none)
    (hreach : t.Reaches (Path.join base name)) (bytes : Bytes) :
    (∃ e, t.append (Path.join (Path.join base name) file) bytes = .error e) ↔
      t.Blocked (Path.join (Path.join base name) file) := by
  obtain ⟨d, hd, hdir⟩ := hreach
  have hplace : placeOf (Path.join (Path.join base name) file) = d ++ [file] := by
    rw [placeOf_join _ hfile, locate_ok hd]
  have hfileName : Path.fileName (Path.join (Path.join base name) file) = file :=
    Path.fileName_of_pieces hfile (Path.pieces_join_join hname hfile)
  rw [append_below hname hfile hfault hd hdir]
  unfold Blocked
  rw [hplace, hfileName]
  by_cases hsize : nameLimit < file.utf8ByteSize
  · simp [hsize]
  · by_cases hd' : t.isDirectory (d ++ [file]) = true
    · simp [hsize, hd']
    · simp [hsize, hd']

end FileTree

/-! ## §2. Performing a list of appends. -/

namespace Append

open FileTree

/-- A row that is to be appended to a file of a directory. -/
def Into (base name : String) (a : Append) : Prop :=
  ∃ file, Path.isPlain file = true ∧ a.path = Path.join (Path.join base name) file ∧
    FileTree.pathFault? a.path = none

theorem Into.error_iff {t : FileTree} {base name : String} {a : Append} (h : a.Into base name)
    (hname : Path.isPlain name = true) (hreach : t.Reaches (Path.join base name)) :
    (∃ e, t.append a.path a.bytes = .error e) ↔ t.Blocked a.path := by
  obtain ⟨file, hfile, hpath, hfault⟩ := h
  rw [hpath] at hfault ⊢
  exact FileTree.append_error_iff hname hfile hfault hreach a.bytes

theorem printRecord_ne_nil (cells : List String) : Csv.printRecord cells ≠ [] := by
  unfold Csv.printRecord
  split <;> simp

theorem bytes_ne_nil (a : Append) : a.bytes ≠ [] := by
  intro h
  exact printRecord_ne_nil a.cells (List.append_eq_nil_iff.1 h).2

/-- **Appends add to their own files**, and nothing else changes, whether all of
them are performed or not. -/
theorem performAll_effect (q : Place) : ∀ (appends : List Append) (t : FileTree),
    (performAll t appends).state.node? q = t.node? q ∨
      (∃ a ∈ appends, placeOf a.path = q) ∧ t.node? q ≠ some .directory ∧
        ∃ more, more ≠ [] ∧
          (performAll t appends).state.node? q = some (.file (t.bytesAt q ++ more)) := by
  intro appends
  induction appends with
  | nil => exact fun _ => .inl rfl
  | cons a rest ih =>
    intro t
    unfold performAll
    cases happend : t.append a.path a.bytes with
    | error e => exact .inl rfl
    | ok t' =>
      show (performAll t' rest).state.node? q = _ ∨ _
      have hnode := node?_append happend q
      by_cases hq : q = placeOf a.path
      · -- The bytes of this append, and then what the later ones add.
        rw [if_pos hq] at hnode
        have hfile : t.node? q ≠ some .directory := hq ▸ (append_ok happend).1
        refine .inr ⟨⟨a, List.mem_cons_self, hq.symm⟩, hfile, ?_⟩
        rcases ih t' with hsame | ⟨-, -, more, -, hmore⟩
        · exact ⟨a.bytes, bytes_ne_nil a, hsame.trans hnode⟩
        · rw [bytesAt_of_file hnode, List.append_assoc] at hmore
          exact ⟨a.bytes ++ more, List.append_ne_nil_of_left_ne_nil (bytes_ne_nil a) _, hmore⟩
      · rw [if_neg hq] at hnode
        have hbytes : t'.bytesAt q = t.bytesAt q := by simp only [bytesAt, hnode]
        have hlater := ih t'
        rw [hnode, hbytes] at hlater
        refine hlater.imp_right ?_
        rintro ⟨⟨b, hb, hplace⟩, hrest⟩
        exact ⟨⟨b, List.mem_cons_of_mem _ hb, hplace⟩, hrest⟩

/-- Appends only add to files. -/
theorem performAll_extends (appends : List Append) (t : FileTree) {p : Place} {bytes : Bytes}
    (h : t.node? p = some (.file bytes)) :
    ∃ more, (performAll t appends).state.node? p = some (.file (bytes ++ more)) := by
  rcases performAll_effect p appends t with hsame | ⟨-, -, more, -, hmore⟩
  · exact ⟨[], by rw [hsame, h, List.append_nil]⟩
  · exact ⟨more, by rw [hmore, bytesAt_of_file h]⟩

/-- Appends that keep away from a place leave it as it is. -/
theorem node?_performAll {p : Place} (appends : List Append) (t : FileTree)
    (hne : ∀ a ∈ appends, placeOf a.path ≠ p) :
    (performAll t appends).state.node? p = t.node? p := by
  rcases performAll_effect p appends t with hsame | ⟨⟨a, ha, hplace⟩, -⟩
  · exact hsame
  · exact absurd hplace (hne a ha)

/-- **A list of appends fails iff one of them is blocked**; the tree decides
that at the start, for no append makes or takes away a directory. -/
theorem performAll_error_iff {base name : String} (hname : Path.isPlain name = true) :
    ∀ {appends : List Append} {t : FileTree}, t.Reaches (Path.join base name) →
      (∀ a ∈ appends, a.Into base name) →
        ((∃ e, (performAll t appends).result = .error e) ↔ ∃ a ∈ appends, t.Blocked a.path) := by
  intro appends
  induction appends with
  | nil =>
    intro t _ _
    simp [performAll]
  | cons a rest ih =>
    intro t hreach hinto
    have hrest := fun b hb => hinto b (List.mem_cons_of_mem _ hb)
    have hiff := (hinto a List.mem_cons_self).error_iff hname hreach
    unfold performAll
    cases happend : t.append a.path a.bytes with
    | error e =>
      have hblocked : t.Blocked a.path := hiff.1 ⟨e, happend⟩
      exact ⟨fun _ => ⟨a, List.mem_cons_self, hblocked⟩, fun _ => ⟨_, rfl⟩⟩
    | ok t' =>
      have hfree : ¬ t.Blocked a.path := by
        intro hblocked
        obtain ⟨e, he⟩ := hiff.2 hblocked
        rw [happend] at he
        cases he
      show (∃ e, (performAll t' rest).result = .error e) ↔ _
      -- The rest is asked of the tree that the append left, which blocks the same.
      rw [ih (hreach.of_append happend) hrest]
      constructor
      · rintro ⟨b, hb, hblocked⟩
        exact ⟨b, List.mem_cons_of_mem _ hb, (FileTree.blocked_append happend).1 hblocked⟩
      · rintro ⟨b, hb, hblocked⟩
        rcases List.mem_cons.1 hb with rfl | hb
        · exact absurd hblocked hfree
        · exact ⟨b, hb, (FileTree.blocked_append happend).2 hblocked⟩

end Append

/-! ## §3. Saves that get as far as their appends. -/

theorem saveBelow_of_performAll {t made : FileTree} {base : String} {codec : Codec} {r : Record}
    {plan : Plan} (hplan : Plan.ofRecord t base codec r = .ok plan)
    (hmade : t.makeDirectories plan.directory = (made, .ok ())) :
    (saveBelow base codec t r).result = (Append.performAll made plan.appends).result ∧
      (saveBelow base codec t r).state = (Append.performAll made plan.appends).state := by
  unfold saveBelow Plan.commit
  simp only [hplan, hmade]
  obtain ⟨result, state, signals⟩ := Append.performAll made plan.appends
  cases result with
  | error e => exact ⟨rfl, rfl⟩
  | ok u => exact ⟨rfl, rfl⟩

/-- The appends of a plan go to files of the entity. -/
theorem into_of_ofRecord {t : FileTree} {base name : String} {codec : Codec} {r : Record}
    {plan : Plan} (hplan : Plan.ofRecord t base codec r = .ok plan)
    (hname : Path.isPlain name = true) (hjoin : plan.directory = Path.join base name) :
    ∀ a ∈ plan.appends, a.Into base name := by
  intro a ha
  obtain ⟨-, -, hfiles⟩ := Plan.ofRecord_ok hplan
  obtain ⟨file, hfile, hpath, found, hfound⟩ := hfiles a ha
  rw [hjoin] at hpath
  refine ⟨file, hfile, hpath, ?_⟩
  rw [hpath] at hfound ⊢
  exact (Plan.existingHeader_ok hname hfile hfound).1

end ReportStore

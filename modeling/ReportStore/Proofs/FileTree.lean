/-
  ReportStore.Proofs.FileTree
  ───────────────────────────
  **WHERE PATHS LEAD, AND WHAT WRITING CHANGES THERE.**

  There are no links in a tree, so the place a path leads to is read off the
  path; the tree only decides whether the way is open.  Making directories
  adds directories where nothing was, and an append changes the file at the
  place of its path.  Neither takes a directory away, so a way to a
  directory that was open stays open.
-/
import ReportStore.FileTree
import ReportStore.Proofs.Path

namespace ReportStore.FileTree

variable {t t' t'' : FileTree}

/-! ## §1. The place of a path. -/

/-- Where one piece of a path leads. -/
def move (here : Place) (piece : String) : Place :=
  if piece = "" ∨ piece = "." then here
  else if piece = ".." then above here
  else here ++ [piece]

/-- The place a path leads to, in any tree where the way is open. -/
def placeOf (path : String) : Place := (Path.pieces path).foldl move (origin path)

/-- A piece that leads nowhere new: it stays, or it goes up. -/
def IsTurn (piece : String) : Prop := piece = "" ∨ piece = "." ∨ piece = ".."

instance (piece : String) : Decidable (IsTurn piece) :=
  inferInstanceAs (Decidable (piece = "" ∨ piece = "." ∨ piece = ".."))

theorem move_of_not_isTurn {piece : String} (h : ¬ IsTurn piece) (here : Place) :
    move here piece = here ++ [piece] := by
  have hstay : ¬ (piece = "" ∨ piece = ".") := fun hs => h (hs.elim .inl fun hd => .inr (.inl hd))
  have hup : piece ≠ ".." := fun hu => h (.inr (.inr hu))
  unfold move
  rw [if_neg hstay, if_neg hup]

/-- **A step from a directory**: a turn is always open, and a name has to be
short enough and there. -/
theorem step_of_isDirectory {here : Place} (hdir : t.isDirectory here = true) (piece : String) :
    t.step here piece =
      if IsTurn piece then .ok (move here piece)
      else if nameLimit < piece.utf8ByteSize then .error .nameTooLong
      else if (t.node? (here ++ [piece])).isSome then .ok (here ++ [piece])
      else .error .notFound := by
  unfold step move
  simp only [hdir, Bool.not_true, Bool.false_eq_true, if_false]
  by_cases hstay : piece = "" ∨ piece = "."
  · have hturn : IsTurn piece := hstay.elim .inl fun h => .inr (.inl h)
    rw [if_pos hstay, if_pos hturn, if_pos hstay]
  · by_cases hup : piece = ".."
    · have hturn : IsTurn piece := .inr (.inr hup)
      rw [if_neg hstay, if_pos hup, if_pos hturn, if_neg hstay, if_pos hup]
    · have hname : ¬ IsTurn piece := by
        rintro (h | h | h)
        · exact hstay (.inl h)
        · exact hstay (.inr h)
        · exact hup h
      rw [if_neg hstay, if_neg hup, if_neg hname]

theorem step_error_of_not_isDirectory {here : Place} (hdir : ¬ t.isDirectory here = true)
    (piece : String) : t.step here piece = .error .notDirectory := by
  unfold step
  simp only [hdir, Bool.not_false, if_true]

theorem step_ok {here next : Place} {piece : String} (h : t.step here piece = .ok next) :
    t.isDirectory here = true ∧ next = move here piece := by
  by_cases hdir : t.isDirectory here = true
  · refine ⟨hdir, ?_⟩
    rw [step_of_isDirectory hdir] at h
    by_cases hturn : IsTurn piece
    · rw [if_pos hturn] at h
      injection h with h
      exact h.symm
    · rw [if_neg hturn] at h
      rw [move_of_not_isTurn hturn]
      split at h
      · cases h
      · split at h
        · injection h with h
          exact h.symm
        · cases h
  · rw [step_error_of_not_isDirectory hdir] at h
    cases h

/-- A step that can be made in one tree can be made in another that has the
directory and the entry it leads to. -/
theorem step_mono {here next : Place} {piece : String} (h : t.step here piece = .ok next)
    (hdir : t'.isDirectory here = true)
    (hnext : (t.node? next).isSome = true → (t'.node? next).isSome = true) :
    t'.step here piece = .ok next := by
  rw [step_of_isDirectory (step_ok h).1] at h
  rw [step_of_isDirectory hdir]
  -- A turn does not ask what is there; a name asks for its own entry only.
  by_cases hturn : IsTurn piece
  · rwa [if_pos hturn] at h ⊢
  · rw [if_neg hturn] at h ⊢
    by_cases hsize : nameLimit < piece.utf8ByteSize
    · rw [if_pos hsize] at h
      cases h
    · rw [if_neg hsize] at h ⊢
      split at h
      · next hsome =>
        injection h with h
        subst h
        rw [if_pos (hnext hsome)]
      · cases h

/-- The first step of a walk that gets somewhere. -/
theorem walk_cons_ok {here p : Place} {piece : String} {rest : List String}
    (h : t.walk here (piece :: rest) = .ok p) :
    ∃ next, t.step here piece = .ok next ∧ t.walk next rest = .ok p := by
  unfold walk at h
  cases hstep : t.step here piece with
  | error e => simp [hstep] at h
  | ok next =>
    simp only [hstep] at h
    exact ⟨next, rfl, h⟩

theorem walk_ok : ∀ {pieces : List String} {here p : Place},
    t.walk here pieces = .ok p → p = pieces.foldl move here := by
  intro pieces
  induction pieces with
  | nil =>
    intro here p h
    injection h with h
    exact h.symm
  | cons piece rest ih =>
    intro here p h
    obtain ⟨next, hstep, hwalk⟩ := walk_cons_ok h
    rw [List.foldl_cons, ← (step_ok hstep).2]
    exact ih hwalk

theorem locate_of_fault {path : String} (hfault : pathFault? path = none) :
    t.locate path = t.walk (origin path) (Path.pieces path) := by
  unfold locate
  rw [hfault]

/-- A path that leads somewhere has nothing wrong with it. -/
theorem fault_of_locate {path : String} {p : Place} (h : t.locate path = .ok p) :
    pathFault? path = none := by
  cases hfault : pathFault? path with
  | some e =>
    unfold locate at h
    rw [hfault] at h
    cases h
  | none => rfl

theorem walk_of_locate {path : String} {p : Place} (h : t.locate path = .ok p) :
    t.walk (origin path) (Path.pieces path) = .ok p :=
  (locate_of_fault (fault_of_locate h)).symm.trans h

theorem locate_ok {path : String} {p : Place} (h : t.locate path = .ok p) : p = placeOf path :=
  walk_ok (walk_of_locate h)

theorem walk_append (t : FileTree) (a b : List String) : ∀ here : Place,
    t.walk here (a ++ b) =
      match t.walk here a with
      | .ok p => t.walk p b
      | .error e => .error e := by
  induction a with
  | nil => exact fun _ => rfl
  | cons piece a ih =>
    intro here
    simp only [List.cons_append, walk]
    cases t.step here piece with
    | error e => rfl
    | ok next => exact ih next

theorem walk_append_ok {a b : List String} {here p : Place} (h : t.walk here (a ++ b) = .ok p) :
    ∃ q, t.walk here a = .ok q ∧ t.walk q b = .ok p := by
  rw [walk_append] at h
  cases hwalk : t.walk here a with
  | error e => simp [hwalk] at h
  | ok q =>
    simp only [hwalk] at h
    exact ⟨q, rfl, h⟩

/-- What a walk comes to is where it started, or lies in a directory. -/
theorem isDirectory_of_walk {pieces : List String} {here p : Place}
    (h : t.walk here pieces = .ok p) (hp : t.isDirectory p = true) :
    t.isDirectory here = true := by
  cases pieces with
  | nil =>
    injection h with h
    rwa [h]
  | cons piece rest =>
    obtain ⟨next, hstep, -⟩ := walk_cons_ok h
    exact (step_ok hstep).1

/-! ## §2. Plain names. -/

theorem not_isTurn_of_isPlain {name : String} (hname : Path.isPlain name = true) :
    ¬ IsTurn name := by
  obtain ⟨hempty, hdot, hdots, -⟩ := (Path.isPlain_iff _).1 hname
  rintro (h | h | h)
  · exact hempty h
  · exact hdot h
  · exact hdots h

theorem move_of_isPlain {name : String} (hname : Path.isPlain name = true) (here : Place) :
    move here name = here ++ [name] :=
  move_of_not_isTurn (not_isTurn_of_isPlain hname) here

/-- One plain name further: the directory holds it, or not, or cannot. -/
theorem step_of_isPlain {name : String} (hname : Path.isPlain name = true) {here : Place}
    (hdir : t.isDirectory here = true) :
    t.step here name =
      if nameLimit < name.utf8ByteSize then .error .nameTooLong
      else if (t.node? (here ++ [name])).isSome then .ok (here ++ [name])
      else .error .notFound := by
  rw [step_of_isDirectory hdir, if_neg (not_isTurn_of_isPlain hname)]

theorem isAnchor_of_isPlain {name : String} (hname : Path.isPlain name = true) (here : Place) :
    isAnchor (here ++ [name]) = false := by
  obtain ⟨-, -, hdots, hall⟩ := (Path.isPlain_iff _).1 hname
  have hroot : here ++ [name] ≠ ["/"] := by
    intro h
    cases here with
    | nil =>
      obtain rfl : name = "/" := by simpa using h
      exact (hall '/' (by decide)).1 rfl
    | cons a as => simp at h
  simp [isAnchor, hdots, hroot]

theorem origin_join {base name : String} (hname : Path.isPlain name = true) :
    origin (Path.join base name) = origin base := by
  unfold origin
  rw [Path.isAbsolute_join hname]

/-- **The place of a name below a base** is the name below the place of the
base. -/
theorem placeOf_join (base : String) {name : String} (hname : Path.isPlain name = true) :
    placeOf (Path.join base name) = placeOf base ++ [name] := by
  have hrel := Path.not_isAbsolute_of_isPlain hname
  unfold placeOf
  rw [origin_join hname]
  rcases Path.join_shape base with ⟨hbase, hjoin⟩ | ⟨-, stem, hstem, hjoin⟩
  · rw [hjoin name hrel, Path.pieces_of_isPlain hname, hbase]
    exact move_of_isPlain hname []
  · rw [hjoin name hrel, Path.pieces_slash, Path.pieces_of_isPlain hname, List.foldl_append]
    rcases hstem with rfl | rfl
    · exact move_of_isPlain hname _
    · -- A slash at the end of the base adds an empty piece, which leads nowhere.
      have hslash : Path.pieces (stem ++ "/") = Path.pieces stem ++ [""] := by
        have h := Path.pieces_slash stem ""
        rwa [String.append_empty] at h
      rw [hslash, List.foldl_append]
      exact move_of_isPlain hname _

/-! ## §3. Trees that have grown. -/

/-- Only directories are new, and they stand where nothing was. -/
def Grown (t t' : FileTree) : Prop :=
  ∀ p, t'.node? p = t.node? p ∨ (t.node? p = none ∧ t'.node? p = some .directory)

theorem Grown.refl (t : FileTree) : Grown t t := fun _ => .inl rfl

theorem Grown.trans (h : Grown t t') (h' : Grown t' t'') : Grown t t'' := by
  intro p
  -- What was new after the first growth is not missing before the second.
  rcases h' p with heq | ⟨hnone, hdir⟩
  · rcases h p with heq' | ⟨hnone', hdir'⟩
    · exact .inl (heq.trans heq')
    · exact .inr ⟨hnone', heq.trans hdir'⟩
  · rcases h p with heq' | ⟨-, hdir'⟩
    · exact .inr ⟨heq'.symm.trans hnone, hdir⟩
    · rw [hdir'] at hnone
      cases hnone

theorem Grown.node?_eq (h : Grown t t') {p : Place} {n : Node} (hp : t.node? p = some n) :
    t'.node? p = some n := by
  rcases h p with heq | ⟨hnone, -⟩
  · exact heq.trans hp
  · rw [hp] at hnone
    cases hnone

theorem Grown.isDirectory (h : Grown t t') {p : Place} (hp : t.isDirectory p = true) :
    t'.isDirectory p = true := by
  unfold FileTree.isDirectory at hp ⊢
  rw [h.node?_eq (by simpa using hp)]
  rfl

theorem isAnchor_eq_false_of_node? {p : Place} (h : t.node? p ≠ some .directory) :
    isAnchor p = false := by
  cases hanchor : isAnchor p with
  | false => rfl
  | true => exact absurd (by simp [node?, hanchor]) h

theorem grown_put {p : Place} (h : t.node? p = none) : Grown t (t.put p .directory) := by
  have hanchor : isAnchor p = false := isAnchor_eq_false_of_node? (by rw [h]; simp)
  intro q
  rw [node?_put t hanchor]
  by_cases hq : q = p
  · subst hq
    exact .inr ⟨h, by rw [if_pos rfl]⟩
  · exact .inl (by rw [if_neg hq])

/-- A step that can be made in a tree can be made when it has grown. -/
theorem Grown.step_ok (h : Grown t t') {here next : Place} {piece : String}
    (hstep : t.step here piece = .ok next) : t'.step here piece = .ok next := by
  refine step_mono hstep (h.isDirectory (FileTree.step_ok hstep).1) ?_
  intro hsome
  obtain ⟨n, hn⟩ := Option.isSome_iff_exists.1 hsome
  rw [h.node?_eq hn]
  rfl

/-- A name that is missing: it leads below a directory, and nothing is there. -/
theorem step_notFound {here : Place} {piece : String}
    (h : t.step here piece = .error .notFound) :
    t.isDirectory here = true ∧ ¬ IsTurn piece ∧ ¬ nameLimit < piece.utf8ByteSize ∧
      t.node? (here ++ [piece]) = none := by
  by_cases hdir : t.isDirectory here = true
  · rw [step_of_isDirectory hdir] at h
    by_cases hturn : IsTurn piece
    · rw [if_pos hturn] at h
      cases h
    · rw [if_neg hturn] at h
      by_cases hsize : nameLimit < piece.utf8ByteSize
      · rw [if_pos hsize] at h
        cases h
      · rw [if_neg hsize] at h
        split at h
        · cases h
        · next hsome => exact ⟨hdir, hturn, hsize, by simpa using hsome⟩
  · rw [step_error_of_not_isDirectory hdir] at h
    cases h

/-- A missing name that is made can be entered. -/
theorem step_put_of_notFound {here : Place} {piece : String}
    (h : t.step here piece = .error .notFound) :
    (t.put (here ++ [piece]) .directory).step here piece = .ok (here ++ [piece]) := by
  obtain ⟨hdir, hturn, hsize, hnone⟩ := step_notFound h
  have hanchor : isAnchor (here ++ [piece]) = false :=
    isAnchor_eq_false_of_node? (by rw [hnone]; simp)
  have hnode : (t.put (here ++ [piece]) .directory).node? (here ++ [piece]) =
      some .directory := by
    rw [node?_put t hanchor, if_pos rfl]
  rw [step_of_isDirectory ((grown_put hnone).isDirectory hdir), if_neg hturn, if_neg hsize, hnode]
  rfl

/-! ## §4. Making directories. -/

theorem makeAlong_grown : ∀ (pieces : List String) (t : FileTree) (made : Bool) (here : Place),
    Grown t (t.makeAlong made here pieces).1 := by
  intro pieces
  induction pieces with
  | nil => exact fun t _ _ => .refl t
  | cons piece rest ih =>
    intro t made here
    unfold makeAlong
    split
    · exact .refl t
    · split
      · exact ih t made _
      · next hstep => exact (grown_put (step_notFound hstep).2.2.2).trans (ih _ true _)
      · exact .refl t

/-- **Directories that were made can be walked to.** -/
theorem makeAlong_ok : ∀ (pieces : List String) {t t' : FileTree} {made : Bool} {here : Place},
    t.makeAlong made here pieces = (t', .ok ()) →
      ∃ p, t'.walk here pieces = .ok p ∧ t'.isDirectory p = true := by
  intro pieces
  induction pieces with
  | nil =>
    intro t t' made here h
    unfold makeAlong at h
    injection h with htree hok
    subst htree
    by_cases hdir : t.isDirectory here = true
    · exact ⟨here, rfl, hdir⟩
    · simp [hdir] at hok
  | cons piece rest ih =>
    intro t t' made here h
    unfold makeAlong at h
    split at h
    · cases h
    · split at h
      · next next hstep =>
        -- What is made further on leaves this step as it is.
        have hgrown : Grown t t' := by
          have := makeAlong_grown rest t made next
          rwa [h] at this
        obtain ⟨p, hp, hdir⟩ := ih h
        exact ⟨p, by simp only [walk, hgrown.step_ok hstep, hp], hdir⟩
      · next hstep =>
        have hgrown : Grown (t.put (here ++ [piece]) .directory) t' := by
          have := makeAlong_grown rest (t.put (here ++ [piece]) .directory) true (here ++ [piece])
          rwa [h] at this
        obtain ⟨p, hp, hdir⟩ := ih h
        exact ⟨p, by simp only [walk, hgrown.step_ok (step_put_of_notFound hstep), hp], hdir⟩
      · cases h

/-- Nothing is made where every directory is there. -/
theorem makeAlong_append (rest : List String) : ∀ {pieces : List String} {here p : Place},
    t.walk here pieces = .ok p → t.isDirectory p = true →
      t.makeAlong false here (pieces ++ rest) = t.makeAlong false p rest := by
  intro pieces
  induction pieces with
  | nil =>
    intro here p h _
    injection h with h
    subst h
    rfl
  | cons piece pieces ih =>
    intro here p h hp
    obtain ⟨next, hstep, hwalk⟩ := walk_cons_ok h
    simp only [List.cons_append, makeAlong, Bool.false_and, Bool.false_eq_true, if_false, hstep]
    exact ih hwalk hp

theorem makeDirectories_grown (t : FileTree) (path : String) :
    Grown t (t.makeDirectories path).1 := by
  unfold makeDirectories
  split
  · exact .refl t
  · split
    · exact .refl t
    · exact makeAlong_grown _ t false _

theorem makeDirectories_ok {path : String} (hpath : path ≠ "")
    (h : t.makeDirectories path = (t', .ok ())) :
    ∃ p, t'.locate path = .ok p ∧ t'.isDirectory p = true := by
  unfold makeDirectories at h
  have hempty : path.isEmpty = false := by simpa using hpath
  simp only [hempty, Bool.false_eq_true, if_false] at h
  cases hfault : pathFault? path with
  | some e => simp [hfault] at h
  | none =>
    simp only [hfault] at h
    rw [locate_of_fault hfault]
    exact makeAlong_ok _ h

theorem makeDirectories_of_locate {path : String} {p : Place} (h : t.locate path = .ok p)
    (hp : t.isDirectory p = true) : t.makeDirectories path = (t, .ok ()) := by
  have hall := makeAlong_append [] (walk_of_locate h) hp
  rw [List.append_nil] at hall
  unfold makeDirectories
  rw [fault_of_locate h]
  split
  · rfl
  · simp only [hall, makeAlong, hp, if_true]

/-! ## §5. Appending. -/

/-- The bytes of the file at a place, of which there are none without a file. -/
def bytesAt (t : FileTree) (p : Place) : Bytes :=
  match t.node? p with
  | some (.file bytes) => bytes
  | _ => []

theorem bytesAt_of_file {p : Place} {bytes : Bytes} (h : t.node? p = some (.file bytes)) :
    t.bytesAt p = bytes := by
  simp only [bytesAt, h]

/-- **A file can be read** if its path leads to it. -/
theorem read_ok_iff {path : String} {bytes : Bytes} :
    t.read path = .ok bytes ↔
      t.locate path = .ok (placeOf path) ∧ t.node? (placeOf path) = some (.file bytes) := by
  unfold read openAt
  cases hlocate : t.locate path with
  | error e => simp
  | ok p =>
    obtain rfl := locate_ok hlocate
    cases hnode : t.node? (placeOf path) with
    | none => simp [hnode]
    | some n => cases n <;> simp [hnode, contents]

theorem read_of_locate {path : String} {p : Place} {bytes : Bytes} (hlocate : t.locate path = .ok p)
    (hfile : t.node? p = some (.file bytes)) : t.read path = .ok bytes := by
  obtain rfl := locate_ok hlocate
  exact read_ok_iff.2 ⟨hlocate, hfile⟩

theorem node?_of_read {path : String} {bytes : Bytes} (h : t.read path = .ok bytes) :
    t.node? (placeOf path) = some (.file bytes) := (read_ok_iff.1 h).2

theorem target_ok {path : String} {p : Place} (h : t.target path = .ok p) : p = placeOf path := by
  unfold target at h
  cases hfault : pathFault? path with
  | some e => simp [hfault] at h
  | none =>
    simp only [hfault] at h
    cases hlast : (Path.pieces path).getLast? with
    | none =>
      -- A path has a piece, be it an empty one.
      have hnil : Path.pieces path = [] := List.getLast?_eq_none_iff.1 hlast
      unfold Path.pieces at hnil
      exact absurd (List.map_eq_nil_iff.1 hnil) (Text.pieces_ne_nil _ _)
    | some name =>
      obtain ⟨front, hfront⟩ := List.getLast?_eq_some_iff.1 hlast
      unfold placeOf
      rw [hfront] at h ⊢
      rw [List.foldl_append]
      simp only [List.dropLast_concat, List.getLast?_concat] at h
      cases hwalk : t.walk (origin path) front with
      | error e => simp [hwalk] at h
      | ok here =>
        simp only [hwalk] at h
        rw [← walk_ok hwalk]
        show p = move here name
        split at h
        · next hstep =>
          injection h with h
          rw [← h, move_of_not_isTurn (step_notFound hstep).2.1]
        · exact (step_ok h).2

theorem append_ok {path : String} {bytes : Bytes} (h : t.append path bytes = .ok t') :
    t.node? (placeOf path) ≠ some .directory ∧
      t' = t.put (placeOf path) (.file (t.bytesAt (placeOf path) ++ bytes)) := by
  unfold append at h
  cases htarget : t.target path with
  | error e => simp [htarget] at h
  | ok p =>
    obtain rfl := target_ok htarget
    simp only [htarget] at h
    unfold bytesAt
    cases hnode : t.node? (placeOf path) with
    | none =>
      simp only [hnode, Except.ok.injEq] at h
      exact ⟨by simp, h.symm⟩
    | some n =>
      cases n with
      | directory => simp [hnode] at h
      | file old =>
        simp only [hnode, Except.ok.injEq] at h
        exact ⟨by simp, h.symm⟩

/-- **An append changes one place only**, and only adds to what is there. -/
theorem node?_append {path : String} {bytes : Bytes} (h : t.append path bytes = .ok t')
    (q : Place) :
    t'.node? q =
      if q = placeOf path then some (.file (t.bytesAt q ++ bytes)) else t.node? q := by
  obtain ⟨hnode, rfl⟩ := append_ok h
  rw [node?_put t (isAnchor_eq_false_of_node? hnode)]
  by_cases hq : q = placeOf path
  · rw [if_pos hq, if_pos hq, hq]
  · rw [if_neg hq, if_neg hq]

theorem isDirectory_append {path : String} {bytes : Bytes} (h : t.append path bytes = .ok t')
    (q : Place) : t'.isDirectory q = t.isDirectory q := by
  unfold isDirectory
  rw [node?_append h q]
  by_cases hq : q = placeOf path
  · obtain ⟨hnode, -⟩ := append_ok h
    rw [if_pos hq, hq, beq_eq_false_iff_ne.2 hnode]
    rfl
  · rw [if_neg hq]

/-- A way to a directory leads over directories only. -/
theorem walk_of_isDirectory (hdirs : ∀ p, t.isDirectory p = true → t'.isDirectory p = true) :
    ∀ {pieces : List String} {here p : Place}, t.walk here pieces = .ok p →
      t.isDirectory p = true → t'.walk here pieces = .ok p := by
  intro pieces
  induction pieces with
  | nil => exact fun h _ => h
  | cons piece rest ih =>
    intro here p h hp
    obtain ⟨next, hstep, hwalk⟩ := walk_cons_ok h
    -- Every place on the way to a directory is one.
    have hnext : t'.isDirectory next = true := hdirs next (isDirectory_of_walk hwalk hp)
    have hstep' : t'.step here piece = .ok next := by
      refine step_mono hstep (hdirs here (step_ok hstep).1) ?_
      intro _
      unfold isDirectory at hnext
      have hnode : t'.node? next = some .directory := by simpa using hnext
      rw [hnode]
      rfl
    unfold walk
    simp only [hstep']
    exact ih hwalk hp

/-! ## §6. Directories that are there. -/

/-- The directory is there. -/
def Reaches (t : FileTree) (directory : String) : Prop :=
  ∃ d, t.locate directory = .ok d ∧ t.isDirectory d = true

theorem Reaches.mono {directory : String} (h : t.Reaches directory)
    (hdirs : ∀ p, t.isDirectory p = true → t'.isDirectory p = true) : t'.Reaches directory := by
  obtain ⟨d, hd, hdir⟩ := h
  refine ⟨d, ?_, hdirs d hdir⟩
  rw [locate_of_fault (fault_of_locate hd)]
  exact walk_of_isDirectory hdirs (walk_of_locate hd) hdir

theorem Reaches.of_append {directory path : String} {bytes : Bytes} (h : t.Reaches directory)
    (happend : t.append path bytes = .ok t') : t'.Reaches directory := by
  refine h.mono ?_
  intro p hp
  rw [isDirectory_append happend]
  exact hp

/-! ## §7. A file in a directory below a base. -/

section Below

variable {base name file : String}

theorem pathFault?_of_below (hname : Path.isPlain name = true) (hfile : Path.isPlain file = true)
    (h : pathFault? (Path.join (Path.join base name) file) = none) :
    pathFault? (Path.join base name) = none := by
  rw [Path.join_join hname hfile] at h
  have hne : Path.join base name ≠ "" := Path.join_ne_empty hname
  generalize Path.join base name = dir at *
  -- The directory is the front of the path: shorter, and with fewer characters.
  unfold pathFault? at h ⊢
  have hempty : dir.isEmpty = false := by simpa using hne
  split at h
  · cases h
  · next hnul =>
    have hnul' : ¬ dir.toList.contains '\x00' = true := by
      intro hc
      apply hnul
      simp only [List.contains_iff_mem] at hc ⊢
      simp [hc]
    split at h
    · cases h
    · split at h
      · cases h
      · next hsize =>
        have hsize' : ¬ pathLimit ≤ dir.utf8ByteSize := by
          simp only [String.utf8ByteSize_append] at hsize
          omega
        rw [if_neg hnul', hempty, if_neg (by simp), if_neg hsize']

theorem pathFault?_below_ne_notFound (hname : Path.isPlain name = true)
    (hfile : Path.isPlain file = true) :
    pathFault? (Path.join (Path.join base name) file) ≠ some .notFound := by
  rw [Path.join_join hname hfile]
  -- Only the empty path is not found whatever the tree holds.
  unfold pathFault?
  split
  · simp
  · split
    · next hempty => simp at hempty
    · split <;> simp

/-- What a path below a directory leads to. -/
theorem openAt_below (hname : Path.isPlain name = true) (hfile : Path.isPlain file = true)
    (hfault : pathFault? (Path.join (Path.join base name) file) = none) :
    t.openAt (Path.join (Path.join base name) file) =
      match t.locate (Path.join base name) with
      | .error e => .error e
      | .ok d =>
        if t.isDirectory d then
          if nameLimit < file.utf8ByteSize then .error .nameTooLong
          else
            match t.node? (d ++ [file]) with
            | some n => .ok n
            | none => .error .notFound
        else .error .notDirectory := by
  unfold openAt locate
  rw [hfault, pathFault?_of_below hname hfile hfault, origin_join hfile,
    Path.pieces_join_join hname hfile]
  simp only [walk_append]
  cases t.walk (origin (Path.join base name)) (Path.pieces (Path.join base name)) with
  | error e => rfl
  | ok d =>
    simp only [walk]
    by_cases hd : t.isDirectory d = true
    · rw [step_of_isPlain hfile hd, if_pos hd]
      by_cases hsize : nameLimit < file.utf8ByteSize
      · simp only [if_pos hsize]
      · simp only [if_neg hsize]
        cases hnode : t.node? (d ++ [file]) with
        | none => simp
        | some n => simp [hnode]
    · simp only [step_error_of_not_isDirectory hd, if_neg hd]

/-- **What an append below a directory comes to**: the name has to be short
enough, and no directory may stand there. -/
theorem append_below (hname : Path.isPlain name = true) (hfile : Path.isPlain file = true)
    (hfault : pathFault? (Path.join (Path.join base name) file) = none) {d : Place}
    (hd : t.locate (Path.join base name) = .ok d) (hdir : t.isDirectory d = true)
    (bytes : Bytes) :
    t.append (Path.join (Path.join base name) file) bytes =
      if nameLimit < file.utf8ByteSize then .error .nameTooLong
      else if t.isDirectory (d ++ [file]) then .error .isDirectory
      else .ok (t.put (d ++ [file]) (.file (t.bytesAt (d ++ [file]) ++ bytes))) := by
  have hwalk : t.walk (origin (Path.join base name)) (Path.pieces (Path.join base name)) =
      .ok d := walk_of_locate hd
  have htarget : t.target (Path.join (Path.join base name) file) =
      if nameLimit < file.utf8ByteSize then .error .nameTooLong else .ok (d ++ [file]) := by
    unfold target
    rw [hfault, origin_join hfile, Path.pieces_join_join hname hfile]
    simp only [List.dropLast_concat, List.getLast?_concat, hwalk, step_of_isPlain hfile hdir]
    by_cases hsize : nameLimit < file.utf8ByteSize
    · simp only [if_pos hsize]
    · simp only [if_neg hsize]
      -- A missing name is made, so it makes no difference whether it is there.
      by_cases hsome : (t.node? (d ++ [file])).isSome = true
      · simp only [if_pos hsome]
      · simp only [if_neg hsome]
  unfold append
  rw [htarget]
  by_cases hsize : nameLimit < file.utf8ByteSize
  · simp only [if_pos hsize]
  · simp only [if_neg hsize, bytesAt, isDirectory]
    obtain ⟨node, hnode⟩ : ∃ node, t.node? (d ++ [file]) = node := ⟨_, rfl⟩
    simp only [hnode]
    rcases node with _ | ⟨_ | old⟩ <;> simp

end Below

/-! ## §8. Files that stay. -/

/-- The same files with the same bytes; directories may differ. -/
def SameFiles (t t' : FileTree) : Prop :=
  ∀ p bytes, t'.node? p = some (.file bytes) ↔ t.node? p = some (.file bytes)

theorem SameFiles.refl (t : FileTree) : SameFiles t t := fun _ _ => Iff.rfl

theorem Grown.sameFiles (h : Grown t t') : SameFiles t t' := by
  intro p bytes
  rcases h p with heq | ⟨hnone, hdir⟩
  · rw [heq]
  · rw [hnone, hdir]
    simp

end ReportStore.FileTree

/-
  ReportStore.Proofs.Saving.Entities
  ──────────────────────────────────
  **ENTITIES KEEP OUT OF EACH OTHER'S WAY.**

  The directory of an entity is named by one text, its sensor and its target
  with a dash between them.  Entities with the same text share a directory,
  be their sensors and targets equal or not; entities with different texts
  share no file.  A save for one of these leaves the files of the other as
  they are, and comes to the same whatever these are.

  For the latter, two trees that differ in one file only are followed side
  by side through planning, making directories and appending: no step of a
  save looks at the place where they differ.
-/
import ReportStore.Codec.Power
import ReportStore.Proofs.Saving.Commit

namespace ReportStore

namespace FileTree

/-! ## §1. Trees that differ in one file. -/

/-- The same entries but at one place, where no directory stands. -/
structure AlikeOff (p : Place) (t t' : FileTree) : Prop where
  nodes : ∀ q, q ≠ p → t'.node? q = t.node? q
  left : t.isDirectory p = false
  right : t'.isDirectory p = false

namespace AlikeOff

variable {p : Place} {t t' : FileTree}

theorem isDirectory (h : AlikeOff p t t') (q : Place) : t'.isDirectory q = t.isDirectory q := by
  by_cases hq : q = p
  · rw [hq, h.left, h.right]
  · unfold FileTree.isDirectory
    rw [h.nodes q hq]

theorem put (h : AlikeOff p t t') {q : Place} (hq : q ≠ p) (hanchor : isAnchor q = false)
    (n : Node) : AlikeOff p (t.put q n) (t'.put q n) := by
  refine ⟨?_, ?_, ?_⟩
  · intro x hx
    rw [node?_put t' hanchor, node?_put t hanchor, h.nodes x hx]
  · unfold FileTree.isDirectory
    rw [node?_put t hanchor, if_neg (Ne.symm hq)]
    exact h.left
  · unfold FileTree.isDirectory
    rw [node?_put t' hanchor, if_neg (Ne.symm hq)]
    exact h.right

theorem step (h : AlikeOff p t t') {here : Place} {piece : String} (hne : here ++ [piece] ≠ p) :
    t'.step here piece = t.step here piece := by
  unfold FileTree.step
  rw [h.isDirectory, h.nodes _ hne]

theorem reaches (h : AlikeOff p t t') {directory : String} (hreach : t.Reaches directory) :
    t'.Reaches directory := by
  refine hreach.mono ?_
  intro q hq
  rw [h.isDirectory]
  exact hq

end AlikeOff

/-! ## §2. Ways that lead through a base. -/

variable {t t' : FileTree} {p : Place} {base name file : String}

/-- The base is there, and the way to it leads over directories. -/
def ReachesBase (t : FileTree) (base : String) : Prop :=
  t.walk (origin base) (Path.lead base) = .ok (placeOf base) ∧ t.isDirectory (placeOf base) = true

/-- The way to a directory below a base leads through the base. -/
theorem reachesBase_of_reaches (hname : Path.isPlain name = true)
    (h : t.Reaches (Path.join base name)) : t.ReachesBase base := by
  obtain ⟨d, hd, hdir⟩ := h
  have hplace : d = placeOf base ++ [name] := by rw [← placeOf_join base hname, locate_ok hd]
  have hpieces := walk_of_locate hd
  rw [origin_join hname, Path.pieces_join base hname] at hpieces
  obtain ⟨b, hlead, hlast⟩ := walk_append_ok hpieces
  obtain ⟨next, hstep, hend⟩ := walk_cons_ok hlast
  injection hend with hend
  -- The name is the last piece of the place, so what is before it is the base.
  obtain ⟨hbdir, hnext⟩ := step_ok hstep
  rw [move_of_isPlain hname, hend, hplace] at hnext
  have hb : placeOf base = b := (List.append_inj' hnext rfl).1
  unfold ReachesBase
  rw [hb]
  exact ⟨hlead, hbdir⟩

theorem ReachesBase.of_alike (h : t.ReachesBase base) (halike : AlikeOff p t t') :
    t'.ReachesBase base := by
  have hdirs : ∀ q, t.isDirectory q = true → t'.isDirectory q = true := by
    intro q hq
    rw [halike.isDirectory]
    exact hq
  exact ⟨walk_of_isDirectory hdirs h.1 h.2, hdirs _ h.2⟩

/-- Below a base that is there, one more step decides. -/
theorem ReachesBase.locate_join (h : t.ReachesBase base) (hname : Path.isPlain name = true)
    (hfault : pathFault? (Path.join base name) = none) :
    t.locate (Path.join base name) = t.step (placeOf base) name := by
  rw [locate_of_fault hfault, origin_join hname, Path.pieces_join base hname]
  simp only [walk_append, h.1, walk]
  cases t.step (placeOf base) name <;> rfl

/-- To write a file, or to find one, its directory has to be there. -/
theorem reaches_of_target (hname : Path.isPlain name = true) (hfile : Path.isPlain file = true)
    (h : t.target (Path.join (Path.join base name) file) = .ok p) :
    t.Reaches (Path.join base name) := by
  unfold target at h
  cases hfault : pathFault? (Path.join (Path.join base name) file) with
  | some e => simp [hfault] at h
  | none =>
    simp only [hfault, origin_join hfile, Path.pieces_join_join hname hfile,
      List.dropLast_concat, List.getLast?_concat] at h
    unfold Reaches
    rw [locate_of_fault (pathFault?_of_below hname hfile hfault)]
    cases hwalk : t.walk (origin (Path.join base name)) (Path.pieces (Path.join base name)) with
    | error e => simp [hwalk] at h
    | ok d =>
      simp only [hwalk] at h
      refine ⟨d, rfl, ?_⟩
      -- The last piece is looked for in a directory, be it there or not.
      split at h
      · next hstep => exact (step_notFound hstep).1
      · exact (step_ok h).1

theorem reaches_of_locate (hname : Path.isPlain name = true) (hfile : Path.isPlain file = true)
    (h : t.locate (Path.join (Path.join base name) file) = .ok p) :
    t.Reaches (Path.join base name) := by
  have hfault := pathFault?_of_below hname hfile (fault_of_locate h)
  have hpieces := walk_of_locate h
  rw [origin_join hfile, Path.pieces_join_join hname hfile] at hpieces
  obtain ⟨d, hd, hlast⟩ := walk_append_ok hpieces
  obtain ⟨next, hstep, -⟩ := walk_cons_ok hlast
  refine ⟨d, ?_, (step_ok hstep).1⟩
  rw [locate_of_fault hfault]
  exact hd

/-! ## §3. A save followed through both trees. -/

/-- A file is the same to open in both trees, if it is not where they differ. -/
theorem AlikeOff.openAt (h : AlikeOff p t t') (hbase : t.ReachesBase base)
    (hname : Path.isPlain name = true) (hfile : Path.isPlain file = true)
    (hne : placeOf base ++ [name] ≠ p) (hne' : placeOf base ++ [name] ++ [file] ≠ p) :
    t'.openAt (Path.join (Path.join base name) file) =
      t.openAt (Path.join (Path.join base name) file) := by
  cases hfault : pathFault? (Path.join (Path.join base name) file) with
  | some e => simp only [FileTree.openAt, locate, hfault]
  | none =>
    have hfault' := pathFault?_of_below hname hfile hfault
    rw [openAt_below hname hfile hfault, openAt_below hname hfile hfault,
      hbase.locate_join hname hfault', (hbase.of_alike h).locate_join hname hfault', h.step hne]
    cases hstep : t.step (placeOf base) name with
    | error e => rfl
    | ok d =>
      have hd : d = placeOf base ++ [name] := by
        rw [(step_ok hstep).2, move_of_isPlain hname]
      subst hd
      simp only [h.isDirectory, h.nodes _ hne']

/-- The directory of an entity is made in both trees, or in neither. -/
theorem AlikeOff.makeDirectories (h : AlikeOff p t t') (hbase : t.ReachesBase base)
    (hname : Path.isPlain name = true) (hne : placeOf base ++ [name] ≠ p) :
    (t'.makeDirectories (Path.join base name)).2 = (t.makeDirectories (Path.join base name)).2 ∧
      AlikeOff p (t.makeDirectories (Path.join base name)).1
        (t'.makeDirectories (Path.join base name)).1 := by
  have hempty : (Path.join base name).isEmpty = false := by simpa using Path.join_ne_empty hname
  have hbase' := hbase.of_alike h
  unfold FileTree.makeDirectories
  simp only [hempty, Bool.false_eq_true, if_false]
  cases hfault : pathFault? (Path.join base name) with
  | some e => exact ⟨rfl, h⟩
  | none =>
    simp only [origin_join hname, Path.pieces_join base hname,
      makeAlong_append [name] hbase.1 hbase.2, makeAlong_append [name] hbase'.1 hbase'.2]
    have hanchor := isAnchor_of_isPlain hname (placeOf base)
    simp only [makeAlong, Bool.false_and, Bool.false_eq_true, if_false, h.step hne]
    split
    · exact ⟨by simp only [h.isDirectory], h⟩
    · have hput := h.put hne hanchor .directory
      exact ⟨by simp only [hput.isDirectory], hput⟩
    · exact ⟨rfl, h⟩

theorem AlikeOff.append (h : AlikeOff p t t') (hreach : t.Reaches (Path.join base name))
    (hname : Path.isPlain name = true) (hfile : Path.isPlain file = true)
    (hfault : pathFault? (Path.join (Path.join base name) file) = none)
    (hne : placeOf base ++ [name] ++ [file] ≠ p) (bytes : Bytes) :
    (∃ e, t.append (Path.join (Path.join base name) file) bytes = .error e ∧
      t'.append (Path.join (Path.join base name) file) bytes = .error e) ∨
    ∃ u u', t.append (Path.join (Path.join base name) file) bytes = .ok u ∧
      t'.append (Path.join (Path.join base name) file) bytes = .ok u' ∧ AlikeOff p u u' := by
  obtain ⟨d, hd, hdir⟩ := hreach
  have hplace : d = placeOf base ++ [name] := by rw [← placeOf_join base hname, locate_ok hd]
  have hd' : t'.locate (Path.join base name) = .ok d := by
    obtain ⟨d', hd', -⟩ := h.reaches ⟨d, hd, hdir⟩
    rw [hd', locate_ok hd', locate_ok hd]
  have hdir' : t'.isDirectory d = true := by rw [h.isDirectory]; exact hdir
  rw [append_below hname hfile hfault hd hdir, append_below hname hfile hfault hd' hdir']
  subst hplace
  rw [h.isDirectory]
  by_cases hsize : nameLimit < file.utf8ByteSize
  · exact .inl ⟨.nameTooLong, by simp only [if_pos hsize], by simp only [if_pos hsize]⟩
  · by_cases hblocked : t.isDirectory (placeOf base ++ [name] ++ [file]) = true
    · refine .inl ⟨.isDirectory, ?_, ?_⟩
      · simp only [if_neg hsize, if_pos hblocked]
      · simp only [if_neg hsize, if_pos hblocked]
    · have hbytes : t'.bytesAt (placeOf base ++ [name] ++ [file]) =
          t.bytesAt (placeOf base ++ [name] ++ [file]) := by
        unfold bytesAt
        rw [h.nodes _ hne]
      rw [hbytes]
      simp only [if_neg hsize, if_neg hblocked]
      exact .inr ⟨_, _, rfl, rfl, h.put hne (isAnchor_of_isPlain hfile _) _⟩

/-! ## §4. Writing one file. -/

theorem alikeOff_of_append {path : String} {bytes : Bytes} (h : t.append path bytes = .ok t') :
    AlikeOff (placeOf path) t t' := by
  obtain ⟨hnode, -⟩ := append_ok h
  have hleft : t.isDirectory (placeOf path) = false := beq_eq_false_iff_ne.2 hnode
  refine ⟨?_, hleft, ?_⟩
  · intro q hq
    rw [node?_append h, if_neg hq]
  · rw [isDirectory_append h]
    exact hleft

theorem alikeOff_of_replace {path : String} {bytes : Bytes} (h : t.replace path bytes = .ok t') :
    AlikeOff (placeOf path) t t' := by
  unfold replace at h
  cases htarget : t.target path with
  | error e => simp [htarget] at h
  | ok q =>
    obtain rfl := target_ok htarget
    simp only [htarget] at h
    split at h
    · cases h
    · next hfree =>
      injection h with h
      subst h
      have hleft : t.isDirectory (placeOf path) = false := by simpa using hfree
      have hanchor := isAnchor_eq_false_of_node? (beq_eq_false_iff_ne.1 hleft)
      refine ⟨?_, hleft, ?_⟩
      · intro q hq
        rw [node?_put t hanchor, if_neg hq]
      · unfold isDirectory
        rw [node?_put t hanchor, if_pos rfl]
        rfl

theorem alikeOff_of_remove {path : String} (h : t.remove path = .ok t') :
    AlikeOff (placeOf path) t t' := by
  unfold remove at h
  cases hlocate : t.locate path with
  | error e => simp [hlocate] at h
  | ok q =>
    obtain rfl := locate_ok hlocate
    simp only [hlocate] at h
    split at h
    · cases h
    · next hfree =>
      injection h with h
      subst h
      have hleft : t.isDirectory (placeOf path) = false := by simpa using hfree
      have hanchor := isAnchor_eq_false_of_node? (beq_eq_false_iff_ne.1 hleft)
      refine ⟨?_, hleft, ?_⟩
      · intro q hq
        simp only [node?, erase, lookup_filter_ne _ hq]
      · have hgone : (t.entries.filter fun e => !(e.1 == placeOf path)).lookup (placeOf path) =
            none := by
          rw [List.lookup_eq_none_iff]
          intro e he
          have hne : e.1 ≠ placeOf path := by simpa using (List.mem_filter.1 he).2
          simpa using Ne.symm hne
        simp only [isDirectory, node?, erase, hanchor, hgone]
        decide

/-- **Writing or removing a file of a directory** needs the directory, and
changes the tree in that file only. -/
theorem reaches_and_alikeOff (hname : Path.isPlain name = true) (hfile : Path.isPlain file = true)
    (h : (∃ bytes, t.append (Path.join (Path.join base name) file) bytes = .ok t' ∨
        t.replace (Path.join (Path.join base name) file) bytes = .ok t') ∨
      t.remove (Path.join (Path.join base name) file) = .ok t') :
    t.Reaches (Path.join base name) ∧
      AlikeOff (placeOf (Path.join (Path.join base name) file)) t t' := by
  rcases h with ⟨bytes, h | h⟩ | h
  -- Writing takes the target of the path, removing its place.
  · refine ⟨?_, alikeOff_of_append h⟩
    unfold append at h
    cases htarget : t.target (Path.join (Path.join base name) file) with
    | error e => simp [htarget] at h
    | ok q => exact reaches_of_target hname hfile htarget
  · refine ⟨?_, alikeOff_of_replace h⟩
    unfold replace at h
    cases htarget : t.target (Path.join (Path.join base name) file) with
    | error e => simp [htarget] at h
    | ok q => exact reaches_of_target hname hfile htarget
  · refine ⟨?_, alikeOff_of_remove h⟩
    unfold remove at h
    cases hlocate : t.locate (Path.join (Path.join base name) file) with
    | error e => simp [hlocate] at h
    | ok q => exact reaches_of_locate hname hfile hlocate

end FileTree

/-! ## §5. Saves for one entity. -/

namespace Append

open FileTree

/-- Appends that keep away from the place where two trees differ come to the
same in both. -/
theorem performAll_alike {base name : String} (hname : Path.isPlain name = true) {p : Place}
    (hne : ∀ file, placeOf base ++ [name] ++ [file] ≠ p) :
    ∀ {appends : List Append} {t t' : FileTree}, AlikeOff p t t' →
      t.Reaches (Path.join base name) → (∀ a ∈ appends, a.Into base name) →
        (performAll t' appends).result = (performAll t appends).result := by
  intro appends
  induction appends with
  | nil => exact fun _ _ _ => rfl
  | cons a rest ih =>
    intro t t' halike hreach hinto
    obtain ⟨file, hfile, hpath, hfault⟩ := hinto a List.mem_cons_self
    have hboth := halike.append hreach hname hfile (hpath ▸ hfault) (hne file) a.bytes
    rw [← hpath] at hboth
    unfold performAll
    rcases hboth with ⟨e, he, he'⟩ | ⟨u, u', hu, hu', hnext⟩
    · simp only [he, he']
    · simp only [hu, hu']
      exact ih hnext (hreach.of_append hu) fun b hb => hinto b (List.mem_cons_of_mem _ hb)

end Append

open FileTree

variable {t t' : FileTree} {base : String} {codec : Codec} {r : Record} {p : Place}

/-- **A save changes files of its entity only.** -/
theorem node?_saveBelow {name : String} (hname : Path.isPlain name = true)
    (hdirectory : Plan.entityDirectory base r = .ok (Path.join base name))
    (hne : ∀ file, placeOf base ++ [name] ++ [file] ≠ p) (bytes : Bytes) :
    (saveBelow base codec t r).state.node? p = some (.file bytes) ↔
      t.node? p = some (.file bytes) := by
  cases hplan : Plan.ofRecord t base codec r with
  | error e => simp only [saveBelow, hplan]
  | ok plan =>
    have hgrown := makeDirectories_grown t plan.directory
    rcases hmade : t.makeDirectories plan.directory with ⟨made, e | u⟩
    · rw [hmade] at hgrown
      have hstate : (saveBelow base codec t r).state = made := by
        simp only [saveBelow, hplan, Plan.commit, hmade]
      rw [hstate]
      exact hgrown.sameFiles p bytes
    · rw [hmade] at hgrown
      obtain ⟨-, hstate⟩ := saveBelow_of_performAll hplan hmade
      have hjoin := Plan.directory_eq hplan hdirectory
      rw [hstate, Append.node?_performAll]
      · exact hgrown.sameFiles p bytes
      · intro a ha
        obtain ⟨file, hfile, hpath, -⟩ := into_of_ofRecord hplan hname hjoin a ha
        rw [hpath, placeOf_join _ hfile, placeOf_join _ hname]
        exact hne file

/-- **A save looks at files of its entity only.** -/
theorem result_saveBelow_alike {name : String} (hname : Path.isPlain name = true)
    (hdirectory : Plan.entityDirectory base r = .ok (Path.join base name))
    (hbase : t.ReachesBase base) (halike : AlikeOff p t t')
    (hne : placeOf base ++ [name] ≠ p) (hne' : ∀ file, placeOf base ++ [name] ++ [file] ≠ p) :
    (saveBelow base codec t' r).result = (saveBelow base codec t r).result := by
  have hheaders : ∀ file, Path.isPlain file = true →
      Plan.existingHeader t' (Path.join (Path.join base name) file) =
        Plan.existingHeader t (Path.join (Path.join base name) file) := by
    intro file hfile
    unfold Plan.existingHeader
    rw [halike.openAt hbase hname hfile hne (hne' file)]
  have hplans : Plan.ofRecord t' base codec r = Plan.ofRecord t base codec r := by
    refine Classical.byContradiction fun hne => ?_
    obtain ⟨-, directory, -, hdirectory', g, -, -, hplain, hheader, -⟩ := Plan.ofRecord_ne hne
    obtain rfl : directory = Path.join base name :=
      Except.ok.inj (hdirectory'.symm.trans hdirectory)
    exact hheader (hheaders _ (Path.isPlain_fileOfGroup hplain))
  cases hplan : Plan.ofRecord t base codec r with
  | error e =>
    rw [hplan] at hplans
    simp only [saveBelow, hplan, hplans]
  | ok plan =>
    rw [hplan] at hplans
    have hjoin := Plan.directory_eq hplan hdirectory
    -- Both trees make the same plan, and then the directory in the same way.
    obtain ⟨hresults, hmade⟩ := halike.makeDirectories hbase hname hne
    rw [← hjoin] at hresults hmade
    rcases hdirs : t.makeDirectories plan.directory with ⟨made, e | u⟩
    · rcases hdirs' : t'.makeDirectories plan.directory with ⟨made', result'⟩
      rw [hdirs, hdirs'] at hresults
      obtain rfl : result' = .error e := hresults
      simp only [saveBelow, hplan, hplans, Plan.commit, hdirs, hdirs']
    · rcases hdirs' : t'.makeDirectories plan.directory with ⟨made', result'⟩
      rw [hdirs, hdirs'] at hresults hmade
      obtain rfl : result' = .ok () := hresults
      obtain ⟨hresult, -⟩ := saveBelow_of_performAll hplan hdirs
      obtain ⟨hresult', -⟩ := saveBelow_of_performAll hplans hdirs'
      rw [hresult, hresult']
      have hreach : made.Reaches (Path.join base name) := by
        rw [hjoin] at hdirs
        exact makeDirectories_ok (Path.join_ne_empty hname) hdirs
      exact Append.performAll_alike hname hne' hmade hreach (into_of_ofRecord hplan hname hjoin)

/-! ## §6. Two entities. -/

/-- **Entities share a directory iff they share the text it is named by; if
they do not, they have nothing to do with each other.**  A group file of the
one is never a group file of the other; a save for the one leaves every file
of the other as it was; and it comes to the same whatever is appended to such
a file, written in its place or removed.  Every record that a save accepts
has a directory. -/
theorem entities_apart {base : String} {r₁ r₂ : Record} {d₁ d₂ : String}
    (h₁ : Plan.entityDirectory base r₁ = .ok d₁) (h₂ : Plan.entityDirectory base r₂ = .ok d₂) :
    ∃ s₁ t₁ s₂ t₂,
      Codec.scalarCell r₁ "sensor" = .ok s₁ ∧ Codec.scalarCell r₁ "target" = .ok t₁ ∧
      Codec.scalarCell r₂ "sensor" = .ok s₂ ∧ Codec.scalarCell r₂ "target" = .ok t₂ ∧
      (d₁ = d₂ ↔ s₁ ++ "-" ++ t₁ = s₂ ++ "-" ++ t₂) ∧
      (s₁ ++ "-" ++ t₁ ≠ s₂ ++ "-" ++ t₂ → ∀ g₁ g₂ p₁ p₂,
        Plan.groupPath d₁ g₁ = .ok p₁ → Plan.groupPath d₂ g₂ = .ok p₂ →
          placeOf p₁ ≠ placeOf p₂ ∧ ∀ codec t,
            (∀ bytes, (saveBelow base codec t r₁).state.node? (placeOf p₂) = some (.file bytes) ↔
              t.node? (placeOf p₂) = some (.file bytes)) ∧
            ∀ t', ((∃ bytes, t.append p₂ bytes = .ok t' ∨ t.replace p₂ bytes = .ok t') ∨
              t.remove p₂ = .ok t') →
                (saveBelow base codec t' r₁).result = (saveBelow base codec t r₁).result) := by
  obtain ⟨s₁, t₁, hs₁, ht₁, rfl⟩ := Plan.entityDirectory_ok h₁
  obtain ⟨s₂, t₂, hs₂, ht₂, rfl⟩ := Plan.entityDirectory_ok h₂
  have hname₁ := Path.isPlain_entity (Plan.nameField_ok hs₁).2 (Plan.nameField_ok ht₁).2
  have hname₂ := Path.isPlain_entity (Plan.nameField_ok hs₂).2 (Plan.nameField_ok ht₂).2
  refine ⟨s₁, t₁, s₂, t₂, (Plan.nameField_ok hs₁).1, (Plan.nameField_ok ht₁).1,
    (Plan.nameField_ok hs₂).1, (Plan.nameField_ok ht₂).1, ?_, ?_⟩
  · constructor
    · exact Path.join_injective hname₁ hname₂
    · intro h
      rw [h]
  · intro hne g₁ g₂ p₁ p₂ hp₁ hp₂
    obtain ⟨f₁, hf₁, rfl⟩ := Plan.groupPath_ok hp₁
    obtain ⟨f₂, hf₂, rfl⟩ := Plan.groupPath_ok hp₂
    rw [placeOf_join _ hf₁, placeOf_join _ hf₂, placeOf_join _ hname₁, placeOf_join _ hname₂]
    generalize hname : s₁ ++ "-" ++ t₁ = n₁ at *
    generalize hname' : s₂ ++ "-" ++ t₂ = n₂ at *
    -- The names of the directories differ, and no place is both long and short.
    have hfiles : ∀ file, placeOf base ++ [n₁] ++ [file] ≠ placeOf base ++ [n₂] ++ [f₂] := by
      intro file h
      have hdirs := (List.append_inj' h rfl).1
      have hnames := (List.append_inj' hdirs rfl).2
      injection hnames with hnames
      exact hne hnames
    have hdirectory : placeOf base ++ [n₁] ≠ placeOf base ++ [n₂] ++ [f₂] := by
      intro h
      have := congrArg List.length h
      simp at this
    refine ⟨hfiles f₁, ?_⟩
    intro codec t
    refine ⟨node?_saveBelow hname₁ h₁ hfiles, ?_⟩
    intro t' ht'
    have hplace : placeOf (Path.join (Path.join base n₂) f₂) = placeOf base ++ [n₂] ++ [f₂] := by
      rw [placeOf_join _ hf₂, placeOf_join _ hname₂]
    obtain ⟨hreaches, halike⟩ := reaches_and_alikeOff hname₂ hf₂ ht'
    rw [hplace] at halike
    exact result_saveBelow_alike hname₁ h₁ (reachesBase_of_reaches hname₂ hreaches) halike
      hdirectory hfiles

/-- A power report with one field of its own. -/
def reportOf (sensor target field : String) : Record :=
  Dict.ofPairs [("timestamp", .int 1), ("sensor", .text sensor), ("target", .text target),
    (field, .int 1)]

/-- A save for `a-b` and the file of `a-c`. -/
theorem entities_apart_two_targets :
    Plan.entityDirectory "out" (reportOf "a" "b" "x") = .ok "out/a-b" ∧
    Plan.entityDirectory "out" (reportOf "a" "c" "y") = .ok "out/a-c" ∧
    ∀ codec t bytes,
      (saveBelow "out" codec t (reportOf "a" "b" "x")).state.node?
          ["out", "a-c", "PowerReport.csv"] = some (.file bytes) ↔
        t.node? ["out", "a-c", "PowerReport.csv"] = some (.file bytes) := by
  have h₁ : Plan.entityDirectory "out" (reportOf "a" "b" "x") = .ok "out/a-b" := rfl
  have h₂ : Plan.entityDirectory "out" (reportOf "a" "c" "y") = .ok "out/a-c" := rfl
  obtain ⟨s₁, t₁, s₂, t₂, hs₁, ht₁, hs₂, ht₂, hiff, hapart⟩ := entities_apart h₁ h₂
  have hne := mt hiff.2 (by decide)
  refine ⟨h₁, h₂, ?_⟩
  intro codec t bytes
  have h := hapart hne "PowerReport" "PowerReport" "out/a-b/PowerReport.csv"
    "out/a-c/PowerReport.csv" rfl rfl
  exact (h.2 codec t).1 bytes

/-- **Two entities of one directory**: the sensors differ, both records can be
saved, and after the one the other is rejected because of its columns. -/
theorem entities_collide :
    Codec.scalarCell (reportOf "a-b" "c" "x") "sensor" = .ok "a-b" ∧
    Codec.scalarCell (reportOf "a" "b-c" "y") "sensor" = .ok "a" ∧
    (saveBelow "out" .power .empty (reportOf "a-b" "c" "x")).result = .ok () ∧
    (saveBelow "out" .power .empty (reportOf "a" "b-c" "y")).result = .ok () ∧
    Plan.entityDirectory "out" (reportOf "a-b" "c" "x") = .ok "out/a-b-c" ∧
    Plan.entityDirectory "out" (reportOf "a" "b-c" "y") = .ok "out/a-b-c" ∧
    (saveBelow "out" .power (saveBelow "out" .power .empty (reportOf "a-b" "c" "x")).state
        (reportOf "a" "b-c" "y")).result =
      .error (.headerMismatch "out/a-b-c/PowerReport.csv" (Columns.header ["y"])
        (Columns.header ["x"])) := by
  refine ⟨rfl, rfl, ?_, ?_, rfl, rfl, ?_⟩ <;> rfl

end ReportStore

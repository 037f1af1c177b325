/-
  ReportStore.Proofs.Saving.Atomicity
  ───────────────────────────────────
  **WHEN A FAILED SAVE LEAVES EVERY FILE AS IT WAS.**

  A save is planned before the tree is touched, and a plan that cannot be
  made changes nothing.  A plan that was made can still fail when it is
  performed, for planning looks at the files of the entity through a
  directory that may not be there yet:

      planned, directory missing  →  directory made  →  first row appended
                                                     →  a later row refused

  `Torn` is that run of events, and it is the only way for a failed save to
  change a file.  If the directory of the entity is there, planning has seen
  all that an append depends on.
-/
import ReportStore.Store
import ReportStore.Proofs.Saving.Commit

namespace ReportStore

/-! ## §1. Saves that are torn. -/

/-- The directory of the entity is missing when the save is planned and made
when it is performed; the first row can be appended then, and a later one
cannot. -/
def Torn (t : FileTree) (base : String) (codec : Codec) (r : Record) : Prop :=
  ∃ plan made first rest, Plan.ofRecord t base codec r = .ok plan ∧
    t.locate plan.directory = .error .notFound ∧
    t.makeDirectories plan.directory = (made, .ok ()) ∧ plan.appends = first :: rest ∧
    ¬ made.Blocked first.path ∧ ∃ a ∈ rest, made.Blocked a.path

/-- A torn save is known by its plan. -/
theorem torn_iff {t made : FileTree} {base : String} {codec : Codec} {r : Record} {plan : Plan}
    {first : Append} {rest : List Append} (hplan : Plan.ofRecord t base codec r = .ok plan)
    (hmade : t.makeDirectories plan.directory = (made, .ok ()))
    (happends : plan.appends = first :: rest) :
    Torn t base codec r ↔ t.locate plan.directory = .error .notFound ∧
      ¬ made.Blocked first.path ∧ ∃ a ∈ rest, made.Blocked a.path := by
  constructor
  · rintro ⟨plan', made', first', rest', hplan', hmissing, hmade', happends', hfirst, hlater⟩
    rw [hplan] at hplan'
    injection hplan' with hplan'
    subst hplan'
    rw [hmade] at hmade'
    injection hmade' with hmade'
    subst hmade'
    rw [happends] at happends'
    injection happends' with hhead htail
    subst hhead htail
    exact ⟨hmissing, hfirst, hlater⟩
  · rintro ⟨hmissing, hfirst, hlater⟩
    exact ⟨plan, made, first, rest, hplan, hmissing, hmade, happends, hfirst, hlater⟩

/-- An append that was made shows in the end. -/
theorem not_sameFiles_of_append {t made u : FileTree} {first : Append}
    (hgrown : FileTree.Grown t made) (happend : made.append first.path first.bytes = .ok u)
    (rest : List Append) :
    ¬ FileTree.SameFiles t (Append.performAll made (first :: rest)).state := by
  intro hsame
  have hnode := FileTree.node?_append happend (FileTree.placeOf first.path)
  rw [if_pos rfl] at hnode
  obtain ⟨more, hmore⟩ := Append.performAll_extends rest u hnode
  have hstate : (Append.performAll made (first :: rest)).state =
      (Append.performAll u rest).state := by
    simp only [Append.performAll, happend]
  rw [← hstate] at hmore
  -- The tree would have held the bytes that the append adds already.
  have hmade := (hgrown.sameFiles _ _).2 ((hsame _ _).1 hmore)
  have hlength := congrArg List.length (FileTree.bytesAt_of_file hmade)
  have hbytes : first.bytes = [] := by
    simp only [List.length_append] at hlength
    exact List.length_eq_zero_iff.1 (by omega)
  exact first.bytes_ne_nil hbytes

/-- **Appends that fail change no file iff it is the first that fails.** -/
theorem performAll_atomic_iff {t made : FileTree} {base name : String}
    (hname : Path.isPlain name = true) (hgrown : FileTree.Grown t made)
    (hreach : made.Reaches (Path.join base name)) {first : Append} {rest : List Append}
    (hinto : ∀ a ∈ first :: rest, a.Into base name) :
    (∀ e, (Append.performAll made (first :: rest)).result = .error e →
        FileTree.SameFiles t (Append.performAll made (first :: rest)).state) ↔
      ¬ (¬ made.Blocked first.path ∧ ∃ a ∈ rest, made.Blocked a.path) := by
  have hfirst := (hinto first List.mem_cons_self).error_iff hname hreach
  have hall := Append.performAll_error_iff hname hreach hinto
  cases happend : made.append first.path first.bytes with
  | error e =>
    have hblocked : made.Blocked first.path := hfirst.1 ⟨e, happend⟩
    have hstate : (Append.performAll made (first :: rest)).state = made := by
      simp only [Append.performAll, happend]
    rw [hstate]
    exact ⟨fun _ h => h.1 hblocked, fun _ _ _ => hgrown.sameFiles⟩
  | ok u =>
    have hfree : ¬ made.Blocked first.path := by
      intro hblocked
      obtain ⟨e, he⟩ := hfirst.2 hblocked
      rw [happend] at he
      cases he
    have hshows := not_sameFiles_of_append hgrown happend rest
    constructor
    · rintro hatomic ⟨-, a, ha, hblocked⟩
      obtain ⟨e, he⟩ := hall.2 ⟨a, List.mem_cons_of_mem _ ha, hblocked⟩
      exact hshows (hatomic e he)
    · intro hwhole e he
      obtain ⟨a, ha, hblocked⟩ := hall.1 ⟨e, he⟩
      rcases List.mem_cons.1 ha with rfl | ha
      · exact absurd hblocked hfree
      · exact absurd ⟨hfree, a, ha, hblocked⟩ hwhole

/-- **Planning sees all that an append depends on, unless the directory is
missing.** -/
theorem locate_of_blocked {t made : FileTree} {base name file : String} {a : Append}
    (hname : Path.isPlain name = true) (hfile : Path.isPlain file = true)
    (hpath : a.path = Path.join (Path.join base name) file) {found : Option (List String)}
    (hfound : Plan.existingHeader t a.path = .ok found)
    (hmade : t.makeDirectories (Path.join base name) = (made, .ok ()))
    (hblocked : made.Blocked a.path) : t.locate (Path.join base name) = .error .notFound := by
  rw [hpath] at hfound hblocked
  obtain ⟨hfault, hmissing | ⟨d, hd, hdir, hsize, hfree⟩⟩ :=
    Plan.existingHeader_ok hname hfile hfound
  · exact hmissing
  · -- The directory was there: nothing was made, and the append is possible.
    rw [FileTree.makeDirectories_of_locate hd hdir] at hmade
    injection hmade with htree
    subst htree
    obtain ⟨e, he⟩ :=
      (FileTree.append_error_iff hname hfile hfault ⟨d, hd, hdir⟩ a.bytes).2 hblocked
    rw [FileTree.append_below hname hfile hfault hd hdir, if_neg hsize, hfree] at he
    cases he

/-- **A failed save leaves every file as it was, unless it is torn**; and a
torn save fails and does not. -/
theorem save_atomic_iff (t : FileTree) (s : Store) (r : Record) :
    (∀ e, (s.save t r).result = .error e → FileTree.SameFiles t (s.save t r).state.1) ↔
      ¬ Torn t s.base s.codec r := by
  show (∀ e, (saveBelow s.base s.codec t r).result = .error e →
    FileTree.SameFiles t (saveBelow s.base s.codec t r).state) ↔ _
  cases hplan : Plan.ofRecord t s.base s.codec r with
  | error e =>
    have hstate : (saveBelow s.base s.codec t r).state = t := by simp only [saveBelow, hplan]
    rw [hstate]
    refine ⟨?_, fun _ _ _ => .refl t⟩
    rintro - ⟨plan, made, first, rest, hplan', -⟩
    rw [hplan] at hplan'
    cases hplan'
  | ok plan =>
    obtain ⟨hdirectory, hne, hfiles⟩ := Plan.ofRecord_ok hplan
    obtain ⟨name, hname, hjoin⟩ := Plan.exists_name hdirectory
    have hgrown := FileTree.makeDirectories_grown t plan.directory
    rcases hmade : t.makeDirectories plan.directory with ⟨made, e | u⟩
    · -- The directory cannot be made: what was made of it are directories.
      have hstate : (saveBelow s.base s.codec t r).state = made := by
        simp only [saveBelow, hplan, Plan.commit, hmade]
      rw [hmade] at hgrown
      rw [hstate]
      refine ⟨?_, fun _ _ _ => hgrown.sameFiles⟩
      rintro - ⟨plan', made', first, rest, hplan', -, hmade', -⟩
      rw [hplan] at hplan'
      injection hplan' with hplan'
      subst hplan'
      rw [hmade] at hmade'
      cases hmade'
    · obtain ⟨first, rest, happends⟩ := List.exists_cons_of_ne_nil hne
      obtain ⟨hresult, hstate⟩ := saveBelow_of_performAll hplan hmade
      rw [hmade] at hgrown
      rw [hresult, hstate, happends, torn_iff hplan hmade happends]
      rw [happends] at hfiles
      rw [hjoin] at hfiles hmade
      have hreach : made.Reaches (Path.join s.base name) :=
        FileTree.makeDirectories_ok (Path.join_ne_empty hname) hmade
      have hinto : ∀ a ∈ first :: rest, a.Into s.base name := by
        rw [← happends]
        exact into_of_ofRecord hplan hname hjoin
      rw [performAll_atomic_iff hname hgrown hreach hinto, hjoin]
      -- If a later append is blocked, then the directory was missing.
      constructor
      · rintro hwhole ⟨-, hlater⟩
        exact hwhole hlater
      · rintro hwhole ⟨hfree, a, ha, hblocked⟩
        obtain ⟨file, hfile, hpath, found, hfound⟩ := hfiles a (List.mem_cons_of_mem _ ha)
        have hmissing := locate_of_blocked hname hfile hpath hfound hmade hblocked
        exact hwhole ⟨hmissing, hfree, a, ha, hblocked⟩

/-! ## §2. A group with too long a name. -/

/-- A report of two groups, the first of them `a`. -/
def twoGroups (second : String) : Record :=
  let counters : Value := .map [("0", .map [("0", .map [("e", .int 1)])])]
  [("groups", .map [("a", counters), (second, counters)]), ("sensor", .text "s"),
    ("target", .text "t"), ("timestamp", .int 1)]

/-- The append of the row of a group of that report. -/
def onlyRow (group : String) : Append :=
  ⟨Path.join "out/s-t" (Codec.fileOfGroup group),
    ["timestamp", "sensor", "target", "socket", "cpu", "e"], ["1", "s", "t", "0", "0", "1"], true⟩

section

variable {second : String}

theorem pathFault?_onlyRow (hplain : Path.isPlain second = true)
    (hnul : '\x00' ∉ second.toList) (hshort : second.utf8ByteSize < 1000) :
    FileTree.pathFault? (onlyRow second).path = none := by
  have hpath : (onlyRow second).path = "out/s-t" ++ "/" ++ (second ++ ".csv") :=
    @Path.join_join "out" "s-t" _ (by decide) (Path.isPlain_fileOfGroup hplain)
  have hnul' : ¬ (onlyRow second).path.toList.contains '\x00' = true := by
    rw [hpath, List.contains_iff_mem]
    simp [hnul]
  have hsize : ¬ FileTree.pathLimit ≤ (onlyRow second).path.utf8ByteSize := by
    have h₁ : "out/s-t".utf8ByteSize = 7 := by decide
    have h₂ : "/".utf8ByteSize = 1 := by decide
    have h₃ : ".csv".utf8ByteSize = 4 := by decide
    rw [hpath]
    unfold FileTree.pathLimit
    simp only [String.utf8ByteSize_append]
    omega
  have hempty : ¬ (onlyRow second).path.isEmpty = true := by
    rw [hpath]
    simp
  unfold FileTree.pathFault?
  rw [if_neg hnul', if_neg hempty, if_neg hsize]

theorem plan_twoGroups (hplain : Path.isPlain second = true)
    (hfault : FileTree.pathFault? (onlyRow second).path = none) :
    Plan.ofRecord .empty "out" .counters (twoGroups second) =
      .ok ⟨"out/s-t", [onlyRow "a", onlyRow second]⟩ := by
  have hheader : Plan.existingHeader .empty (onlyRow second).path = .ok none := by
    have hopen : FileTree.empty.openAt (onlyRow second).path = .error .notFound :=
      @FileTree.openAt_below .empty "out" "s-t" _ (by decide) (Path.isPlain_fileOfGroup hplain)
        hfault
    unfold Plan.existingHeader
    rw [hopen]
  have hgroup : Plan.groupPath "out/s-t" second = .ok (onlyRow second).path := by
    unfold Plan.groupPath
    rw [if_pos hplain]
    rfl
  let row : Record := [("cpu", .text "0"), ("e", .int 1), ("sensor", .text "s"),
    ("socket", .text "0"), ("target", .text "t"), ("timestamp", .int 1)]
  have hrow : Plan.planRows .empty (onlyRow second).path none [row] = .ok [onlyRow second] := by
    unfold Plan.planRows Plan.planRow
    rw [hheader]
    rfl
  have hlater : Plan.planGroups .empty "out/s-t" [(second, [row])] = .ok [onlyRow second] := by
    unfold Plan.planGroups
    rw [hgroup]
    simp only [hrow]
    rfl
  have hgroups : Codec.counters.toGroups (twoGroups second) =
      .ok [("a", [row]), (second, [row])] := rfl
  have hentity : Plan.entityDirectory "out" (twoGroups second) = .ok "out/s-t" := rfl
  have hfirst : Plan.groupPath "out/s-t" "a" = .ok (onlyRow "a").path := rfl
  have hfirstRow : Plan.planRows .empty (onlyRow "a").path none [row] = .ok [onlyRow "a"] := rfl
  unfold Plan.ofRecord
  simp only [hgroups, hentity]
  unfold Plan.planGroups
  simp only [hfirst, hfirstRow, hlater]
  rfl

/-- **The first group is appended, the second is refused.** -/
theorem save_twoGroups (hplain : Path.isPlain second = true) (hnul : '\x00' ∉ second.toList)
    (hshort : second.utf8ByteSize < 1000) (hlong : 251 < second.utf8ByteSize) :
    (saveBelow "out" .counters .empty (twoGroups second)).result =
        .error (.system (onlyRow second).path .nameTooLong) ∧
      (saveBelow "out" .counters .empty (twoGroups second)).state.node? ["out", "s-t", "a.csv"] =
        some (.file (onlyRow "a").bytes) := by
  have hfault := pathFault?_onlyRow hplain hnul hshort
  let made : FileTree := ⟨[(["out", "s-t"], .directory), (["out"], .directory)]⟩
  let grown : FileTree := made.put ["out", "s-t", "a.csv"] (.file (onlyRow "a").bytes)
  have hmade : FileTree.empty.makeDirectories "out/s-t" = (made, .ok ()) := rfl
  have hfirst : made.append (onlyRow "a").path (onlyRow "a").bytes = .ok grown := rfl
  have hsecond : grown.append (onlyRow second).path (onlyRow second).bytes =
      .error .nameTooLong := by
    have hsize : FileTree.nameLimit < (Codec.fileOfGroup second).utf8ByteSize := by
      have hext : ".csv".utf8ByteSize = 4 := by decide
      unfold Codec.fileOfGroup Codec.extension FileTree.nameLimit
      rw [String.utf8ByteSize_append]
      omega
    have h := @FileTree.append_below grown "out" "s-t" _ (by decide)
      (Path.isPlain_fileOfGroup hplain) hfault ["out", "s-t"] rfl rfl (onlyRow second).bytes
    rw [if_pos hsize] at h
    exact h
  obtain ⟨hresult, hstate⟩ := saveBelow_of_performAll (plan_twoGroups hplain hfault) hmade
  rw [hresult, hstate]
  simp only [Append.performAll, hfirst, hsecond]
  exact ⟨trivial, rfl⟩

theorem twoGroups_not_atomic (hplain : Path.isPlain second = true)
    (hnul : '\x00' ∉ second.toList) (hshort : second.utf8ByteSize < 1000)
    (hlong : 251 < second.utf8ByteSize) :
    let s : Store := ⟨"out", .counters, Merge.new .lenient, Tally.zero⟩
    (∃ e, (s.save .empty (twoGroups second)).result = .error e) ∧
      ¬ FileTree.SameFiles .empty (s.save .empty (twoGroups second)).state.1 := by
  intro s
  obtain ⟨hresult, hnode⟩ := save_twoGroups hplain hnul hshort hlong
  refine ⟨⟨_, hresult⟩, ?_⟩
  intro hsame
  -- Nothing was in the tree before.
  have hempty := (hsame _ _).1 hnode
  cases hempty

end

/-- A group whose file would have a name of 256 bytes. -/
def longGroup : String := String.ofList (List.replicate 252 'b')

theorem mem_longGroup {c : Char} : c ∈ longGroup.toList ↔ c = 'b' := by
  unfold longGroup
  rw [String.toList_ofList, List.mem_replicate]
  simp

/-- A failed save that leaves a file behind. -/
theorem save_longGroup_not_atomic :
    let s : Store := ⟨"out", .counters, Merge.new .lenient, Tally.zero⟩
    (∃ e, (s.save .empty (twoGroups longGroup)).result = .error e) ∧
      ¬ FileTree.SameFiles .empty (s.save .empty (twoGroups longGroup)).state.1 := by
  have hplain : Path.isPlain longGroup = true := by
    refine Path.isPlain_of_mem (mem_longGroup.2 rfl) (by decide) ?_
    intro c hc
    rw [mem_longGroup.1 hc]
    decide
  have hnul : '\x00' ∉ longGroup.toList := by
    intro h
    cases mem_longGroup.1 h
  have hsize : longGroup.utf8ByteSize = 252 := by decide +kernel
  exact twoGroups_not_atomic hplain hnul (by omega) (by omega)

end ReportStore

/-
  ReportStore.Proofs.Path
  ───────────────────────
  **WHAT A JOINED PATH IS MADE OF.**

  A path is a text, and so is a base: it may be empty, end in a slash, or be
  full of dots.  Whatever the base is, a plain name joined to it becomes the
  last piece, and the pieces before it are those of the base alone:

      pieces (join base name) = lead base ++ [name]      for a plain name
-/
import ReportStore.Path
import ReportStore.Codec.Basic

namespace ReportStore

/-! ## §1. Cutting a text in two. -/

namespace Text

theorem pieces_of_not_mem {sep : Char} {cs : List Char} (h : sep ∉ cs) : pieces sep cs = [cs] := by
  induction cs with
  | nil => rfl
  | cons c cs ih =>
    have hc : c ≠ sep := fun hc => h (hc ▸ List.mem_cons_self)
    have hcs : sep ∉ cs := fun hcs => h (List.mem_cons_of_mem _ hcs)
    unfold pieces
    rw [if_neg hc, ih hcs]
    rfl

theorem pieces_append_cons (sep : Char) (a b : List Char) :
    pieces sep (a ++ sep :: b) = pieces sep a ++ pieces sep b := by
  induction a with
  | nil => simp [pieces]
  | cons c a ih =>
    by_cases hc : c = sep
    · simp only [List.cons_append, pieces, hc, if_true, ih]
    · simp only [List.cons_append, pieces, hc, if_false, ih]
      -- There is a first piece of `a`, and the character goes before it.
      cases hp : pieces sep a with
      | nil => exact absurd hp (pieces_ne_nil sep a)
      | cons piece rest => rfl

end Text

namespace Path

/-! ## §2. Plain names. -/

theorem isPlain_iff (name : String) :
    isPlain name = true ↔
      name ≠ "" ∧ name ≠ "." ∧ name ≠ ".." ∧ ∀ c ∈ name.toList, c ≠ '/' ∧ c ≠ '\\' := by
  unfold isPlain
  simp only [Bool.and_eq_true, bne_iff_ne, List.all_eq_true, and_assoc]

/-- A name with something else than dots is plain if it has no separator. -/
theorem isPlain_of_mem {name : String} {c : Char} (hc : c ∈ name.toList) (hdot : c ≠ '.')
    (hall : ∀ c ∈ name.toList, c ≠ '/' ∧ c ≠ '\\') : isPlain name = true := by
  rw [isPlain_iff]
  -- The names that are not plain for being short have dots only.
  refine ⟨?_, ?_, ?_, hall⟩
  all_goals
    rintro rfl
    simp at hc
    try exact hdot hc

theorem isPlain_entity {sensor target : String} (hs : isPlain sensor = true)
    (ht : isPlain target = true) : isPlain (sensor ++ "-" ++ target) = true := by
  have hsc := ((isPlain_iff _).1 hs).2.2.2
  have htc := ((isPlain_iff _).1 ht).2.2.2
  refine isPlain_of_mem (c := '-') (by simp) (by decide) ?_
  intro c hc
  simp only [String.toList_append, List.mem_append] at hc
  -- A character of the sensor, the dash, or a character of the target.
  rcases hc with (hc | hc) | hc
  · exact hsc c hc
  · have hdash : c = '-' := by simpa using hc
    subst hdash
    decide
  · exact htc c hc

theorem isPlain_fileOfGroup {group : String} (hg : isPlain group = true) :
    isPlain (Codec.fileOfGroup group) = true := by
  have hgc := ((isPlain_iff _).1 hg).2.2.2
  unfold Codec.fileOfGroup Codec.extension
  refine isPlain_of_mem (c := 'c') (by simp) (by decide) ?_
  intro c hc
  rw [String.toList_append, List.mem_append] at hc
  rcases hc with hc | hc
  · exact hgc c hc
  · have hext : c = '.' ∨ c = 'c' ∨ c = 's' ∨ c = 'v' := by simpa using hc
    rcases hext with rfl | rfl | rfl | rfl <;> decide

theorem not_isAbsolute_of_isPlain {name : String} (h : isPlain name = true) :
    isAbsolute name = false := by
  have hall := ((isPlain_iff _).1 h).2.2.2
  unfold isAbsolute
  cases hcs : name.toList with
  | nil => rfl
  | cons c cs =>
    have hc := (hall c (by rw [hcs]; exact List.mem_cons_self)).1
    simpa using hc

theorem pieces_of_isPlain {name : String} (h : isPlain name = true) : pieces name = [name] := by
  have hall := ((isPlain_iff _).1 h).2.2.2
  have hslash : '/' ∉ name.toList := fun hmem => (hall '/' hmem).1 rfl
  unfold pieces
  rw [Text.pieces_of_not_mem hslash]
  simp

/-! ## §3. Joined paths. -/

theorem pieces_slash (a b : String) : pieces (a ++ "/" ++ b) = pieces a ++ pieces b := by
  have hchars : (a ++ "/" ++ b).toList = a.toList ++ '/' :: b.toList := by simp
  unfold pieces
  rw [hchars, Text.pieces_append_cons, List.map_append]

/-- **The shape of a joined path**: the same text stands before every name. -/
theorem join_shape (base : String) :
    (base = "" ∧ ∀ name, isAbsolute name = false → join base name = name) ∨
    (base ≠ "" ∧ ∃ stem, (base = stem ∨ base = stem ++ "/") ∧
      ∀ name, isAbsolute name = false → join base name = stem ++ "/" ++ name) := by
  by_cases hbase : base = ""
  · left
    refine ⟨hbase, ?_⟩
    intro name hname
    simp [join, hbase]
  · right
    refine ⟨hbase, ?_⟩
    have hempty : base.isEmpty = false := by simpa using hbase
    by_cases hlast : base.toList.getLast? = some '/'
    · obtain ⟨front, hfront⟩ := List.getLast?_eq_some_iff.1 hlast
      have hstem : base = String.ofList front ++ "/" := by
        apply String.toList_injective
        simp [hfront]
      refine ⟨String.ofList front, .inr hstem, ?_⟩
      intro name hname
      rw [← hstem]
      simp [join, hname, hempty, hlast]
    · refine ⟨base, .inl rfl, ?_⟩
      intro name hname
      simp [join, hname, hempty, hlast]

/-- The pieces of a base that stand before a name joined to it. -/
def lead (base : String) : List String := (pieces (join base "")).dropLast

/-- **A name joined to a base is the last piece.** -/
theorem pieces_join (base : String) {name : String} (hname : isPlain name = true) :
    pieces (join base name) = lead base ++ [name] := by
  have hrel := not_isAbsolute_of_isPlain hname
  have hnone : isAbsolute "" = false := by decide
  unfold lead
  rcases join_shape base with ⟨-, hjoin⟩ | ⟨-, stem, -, hjoin⟩
  · rw [hjoin name hrel, hjoin "" hnone, pieces_of_isPlain hname]
    rfl
  · -- The empty name leaves an empty piece, which is dropped.
    have hempty : pieces "" = [""] := by decide
    rw [hjoin name hrel, hjoin "" hnone, pieces_slash, pieces_slash, pieces_of_isPlain hname,
      hempty, List.dropLast_concat]

theorem join_injective {base a b : String} (ha : isPlain a = true) (hb : isPlain b = true)
    (h : join base a = join base b) : a = b := by
  have hpieces : lead base ++ [a] = lead base ++ [b] := by
    rw [← pieces_join base ha, ← pieces_join base hb, h]
  simpa using hpieces

theorem isAbsolute_join {base name : String} (hname : isPlain name = true) :
    isAbsolute (join base name) = isAbsolute base := by
  have hrel := not_isAbsolute_of_isPlain hname
  rcases join_shape base with ⟨hbase, hjoin⟩ | ⟨hbase, stem, hstem, hjoin⟩
  · rw [hjoin name hrel, hrel, hbase]
    rfl
  · rw [hjoin name hrel]
    unfold isAbsolute
    rcases hstem with rfl | rfl
    · -- The base has a first character of its own.
      cases hcs : base.toList with
      | nil => exact absurd (String.toList_eq_nil_iff.1 hcs) hbase
      | cons c cs => simp [hcs]
    · cases hcs : stem.toList <;> simp [hcs]

/-- A joined path ends in its name. -/
theorem toList_join (base : String) {name : String} (hname : isPlain name = true) :
    ∃ front, (join base name).toList = front ++ name.toList := by
  have hrel := not_isAbsolute_of_isPlain hname
  rcases join_shape base with ⟨-, hjoin⟩ | ⟨-, stem, -, hjoin⟩
  · exact ⟨[], by rw [hjoin name hrel]; rfl⟩
  · exact ⟨stem.toList ++ ['/'], by rw [hjoin name hrel]; simp⟩

theorem join_ne_empty {base name : String} (hname : isPlain name = true) :
    join base name ≠ "" := by
  intro h
  obtain ⟨front, hfront⟩ := toList_join base hname
  rw [h] at hfront
  have hnil := (List.append_eq_nil_iff.1 hfront.symm).2
  exact ((isPlain_iff _).1 hname).1 (String.toList_eq_nil_iff.1 hnil)

/-- **A name below a joined path**: the path is closed by no slash, so the
name comes after all of its pieces. -/
theorem join_join {base name file : String} (hname : isPlain name = true)
    (hfile : isPlain file = true) :
    join (join base name) file = join base name ++ "/" ++ file := by
  obtain ⟨hne, -, -, hall⟩ := (isPlain_iff _).1 hname
  -- The last character of the joined path is the one of the name.
  have hopen : (join base name).toList.getLast? ≠ some '/' := by
    obtain ⟨front, hfront⟩ := toList_join base hname
    have hchars : name.toList ≠ [] := fun h => hne (String.toList_eq_nil_iff.1 h)
    rw [hfront, List.getLast?_append]
    intro h
    rw [List.getLast?_eq_some_getLast hchars, Option.some_or,
      ← List.getLast?_eq_some_getLast hchars] at h
    exact (hall '/' (List.mem_of_getLast? h)).1 rfl
  have hempty : (join base name).isEmpty = false := by simpa using join_ne_empty hname
  have hrel := not_isAbsolute_of_isPlain hfile
  generalize join base name = dir at *
  simp [join, hrel, hempty, hopen]

theorem pieces_join_join {base name file : String} (hname : isPlain name = true)
    (hfile : isPlain file = true) :
    pieces (join (join base name) file) = pieces (join base name) ++ [file] := by
  rw [join_join hname hfile, pieces_slash, pieces_of_isPlain hfile]

theorem fileName_of_pieces {path file : String} {lead : List String} (hfile : isPlain file = true)
    (h : pieces path = lead ++ [file]) : fileName path = file := by
  obtain ⟨hne, hdot, hdots, -⟩ := (isPlain_iff _).1 hfile
  unfold fileName
  simp [h, List.filter_append, hne, hdot, hdots]

end Path

end ReportStore

/-
  ReportStore.Proofs.TimeOrder
  ────────────────────────────
  **ROWS IN TIME, WITHOUT THE FILES BEING SORTED.**

  A merge reads each file from front to back and never turns back, so what
  it makes of a row depends on the rows before it.  Two selections say which
  rows count, and both keep an element for what comes before it only:

    • `strictMaxima` — the times that are later than every earlier one.
      These are the times that a primary file gives to the stream,
    • `dueAt` — the rows of one time, none of them behind a later time of
      its own file.  These are the rows that a file adds at that time.

  Main statements:

      strictMaxima (t :: ts) = t :: strictMaxima (the rest past t)
      dueAt T (a ++ b) = (rows of a at T) ++ dueAt T b   if a is not past T
-/

namespace ReportStore

variable {α : Type}

/-! ## §1. Selections by what comes before. -/

/-- The elements that every earlier element of the list is related to. -/
def leaders (rel : α → α → Bool) : List α → List α
  | [] => []
  | x :: rest => x :: (leaders rel rest).filter (rel x)

/-- The strict running maxima: each time larger than all earlier ones. -/
def strictMaxima (times : List Int) : List Int := leaders (fun a b => decide (a < b)) times

/-- What stands at a time and is not smaller than any earlier time of the
same list. -/
def dueAt (time : Int) (rows : List (Int × α)) : List α :=
  ((leaders (fun a b => decide (a.1 ≤ b.1)) rows).filter fun p => decide (p.1 = time)).map (·.2)

/-! ## §2. Strict maxima. -/

/-- Past a time only the later ones can lead. -/
theorem filter_lt_strictMaxima (t : Int) (ts : List Int) :
    (strictMaxima ts).filter (fun x => decide (t < x)) =
      strictMaxima (ts.dropWhile fun x => decide (x ≤ t)) := by
  induction ts with
  | nil => rfl
  | cons x rest ih =>
    unfold strictMaxima at ih ⊢
    by_cases hx : x ≤ t
    · -- A time that is not past `t` bars no time that is.
      have hbar : ∀ y, (decide (t < y) && decide (x < y)) = decide (t < y) := by
        intro y
        by_cases hy : t < y
        · simp [hy, show x < y by omega]
        · simp [hy]
      simp only [leaders, List.filter_cons, List.dropWhile_cons, hx, decide_true, if_true,
        show ¬ t < x by omega, decide_false, Bool.false_eq_true, if_false, List.filter_filter, hbar]
      exact ih
    · have hbar : ∀ y, (decide (t < y) && decide (x < y)) = decide (x < y) := by
        intro y
        by_cases hy : x < y
        · simp [hy, show t < y by omega]
        · simp [hy]
      simp only [leaders, List.filter_cons, List.dropWhile_cons, hx, decide_false,
        Bool.false_eq_true, if_false, show t < x by omega, decide_true, if_true,
        List.filter_filter, hbar]

/-- **The next maximum comes after all that is not past the first.** -/
theorem strictMaxima_cons (t : Int) (ts : List Int) :
    strictMaxima (t :: ts) = t :: strictMaxima (ts.dropWhile fun x => decide (x ≤ t)) := by
  rw [← filter_lt_strictMaxima]
  rfl

/-- Leaders are related in their order. -/
theorem leaders_pairwise (rel : α → α → Bool) (xs : List α) :
    (leaders rel xs).Pairwise fun a b => rel a b = true := by
  induction xs with
  | nil => exact List.Pairwise.nil
  | cons x rest ih =>
    refine List.pairwise_cons.2 ⟨?_, ih.filter _⟩
    intro y hy
    exact (List.mem_filter.1 hy).2

theorem strictMaxima_pairwise (times : List Int) : (strictMaxima times).Pairwise (· < ·) := by
  refine (leaders_pairwise _ times).imp ?_
  intro a b hab
  exact of_decide_eq_true hab

/-- Times that start past another are all kept when it is passed. -/
theorem dropWhile_of_lt_head {t : Int} {ts : List Int} (h : ∀ x ∈ ts.head?, t < x) :
    ts.dropWhile (fun x => decide (x ≤ t)) = ts := by
  rcases ts with _ | ⟨x, rest⟩
  · rfl
  · have hx : t < x := h x rfl
    rw [List.dropWhile_cons, if_neg (by simp; omega)]

/-! ## §3. Rows that are due. -/

/-- What is due at a time stands before the first row past it. -/
theorem dueAt_eq_takeWhile (time : Int) (rows : List (Int × α)) :
    dueAt time rows =
      (((rows.takeWhile fun p => decide (p.1 ≤ time)).filter fun p => decide (p.1 = time)).map
        (·.2)) := by
  unfold dueAt
  congr 1
  induction rows with
  | nil => rfl
  | cons p rest ih =>
    simp only [leaders, List.takeWhile_cons]
    by_cases hp : p.1 ≤ time
    · have hbar : ∀ q : Int × α, (decide (q.1 = time) && decide (p.1 ≤ q.1)) =
          decide (q.1 = time) := by
        intro q
        by_cases hq : q.1 = time
        · simp [hq, hp]
        · simp [hq]
      simp only [hp, decide_true, if_true, List.filter_cons, List.filter_filter, hbar, ih]
    · -- A row past the time bars all that could stand at it.
      have hbar : ∀ q : Int × α, (decide (q.1 = time) && decide (p.1 ≤ q.1)) = false := by
        intro q
        by_cases hq : q.1 = time
        · simp [hq, hp]
        · simp [hq]
      simp [hp, List.filter_filter, hbar, show ¬ p.1 = time by omega]

/-- What is due at a time stands at it. -/
theorem mem_of_mem_dueAt {time : Int} {rows : List (Int × α)} {row : α}
    (h : row ∈ dueAt time rows) : (time, row) ∈ rows := by
  rw [dueAt_eq_takeWhile] at h
  obtain ⟨p, hp, rfl⟩ := List.mem_map.1 h
  obtain ⟨hbefore, htime⟩ := List.mem_filter.1 hp
  rw [← of_decide_eq_true htime]
  exact (List.takeWhile_sublist _).subset hbefore

/-- **At each strict maximum of the times a row is due**: the one that it is the
time of. -/
theorem exists_dueAt_of_mem_strictMaxima {time : Int} {rows : List (Int × α)}
    (h : time ∈ strictMaxima (rows.map (·.1))) :
    ∃ p ∈ rows, p.1 = time ∧ p.2 ∈ dueAt time rows := by
  -- A time that is later than every earlier one is not behind any of them.
  have hleads : ∀ {rows : List (Int × α)}, time ∈ strictMaxima (rows.map (·.1)) →
      ∃ p ∈ leaders (fun a b => decide (a.1 ≤ b.1)) rows, p ∈ rows ∧ p.1 = time := by
    intro rows
    induction rows with
    | nil => exact fun h => nomatch h
    | cons p rest ih =>
      intro h
      rcases List.mem_cons.1 h with rfl | h
      · exact ⟨p, List.mem_cons_self, List.mem_cons_self, rfl⟩
      · obtain ⟨hmem, hlt⟩ := List.mem_filter.1 h
        obtain ⟨q, hq, hrest, rfl⟩ := ih hmem
        have hle : p.1 ≤ q.1 := Int.le_of_lt (of_decide_eq_true hlt)
        refine ⟨q, List.mem_cons_of_mem _ (List.mem_filter.2 ⟨hq, ?_⟩),
          List.mem_cons_of_mem _ hrest, rfl⟩
        exact decide_eq_true hle
  obtain ⟨p, hp, hmem, htime⟩ := hleads h
  refine ⟨p, hmem, htime, List.mem_map.2 ⟨p, List.mem_filter.2 ⟨hp, ?_⟩, rfl⟩⟩
  exact decide_eq_true htime

/-- Nothing is due behind a row that is past the time. -/
theorem dueAt_cons_of_lt {time : Int} {p : Int × α} (h : time < p.1) (rows : List (Int × α)) :
    dueAt time (p :: rows) = [] := by
  rw [dueAt_eq_takeWhile, List.takeWhile_cons, if_neg (by simp; omega)]
  rfl

/-- **Rows that are not past the time bar nothing after them.** -/
theorem dueAt_append {time : Int} {before : List (Int × α)} (h : ∀ p ∈ before, p.1 ≤ time)
    (rows : List (Int × α)) :
    dueAt time (before ++ rows) =
      (before.filter fun p => decide (p.1 = time)).map (·.2) ++ dueAt time rows := by
  have hall : ∀ p ∈ before, decide (p.1 ≤ time) = true := fun p hp => decide_eq_true (h p hp)
  rw [dueAt_eq_takeWhile, dueAt_eq_takeWhile, List.takeWhile_append_of_pos hall]
  simp

/-- Rows before a time add nothing at it. -/
theorem dueAt_append_of_lt {time : Int} {before : List (Int × α)} (h : ∀ p ∈ before, p.1 < time)
    (rows : List (Int × α)) : dueAt time (before ++ rows) = dueAt time rows := by
  have hnone : (before.filter fun p => decide (p.1 = time)) = [] := by
    rw [List.filter_eq_nil_iff]
    intro p hp
    have := h p hp
    simp
    omega
  rw [dueAt_append fun p hp => Int.le_of_lt (h p hp), hnone]
  rfl

/-! ## §4. Files that are sorted. -/

/-- In a list that is in order every element leads. -/
theorem leaders_of_pairwise {rel : α → α → Bool} {xs : List α}
    (h : xs.Pairwise fun a b => rel a b = true) : leaders rel xs = xs := by
  induction xs with
  | nil => rfl
  | cons x rest ih =>
    obtain ⟨hx, hrest⟩ := List.pairwise_cons.1 h
    rw [leaders, ih hrest, List.filter_eq_self.2 hx]

/-- **In a sorted file all rows of a time are due at it.** -/
theorem dueAt_of_sorted {rows : List (Int × α)} (h : rows.Pairwise fun a b => a.1 ≤ b.1)
    (time : Int) : dueAt time rows = (rows.filter fun p => decide (p.1 = time)).map (·.2) := by
  unfold dueAt
  rw [leaders_of_pairwise (h.imp fun hab => decide_eq_true hab)]

/-- In a sorted list, what is past the first time is what differs from it. -/
theorem dropWhile_of_sorted {t : Int} {ts : List Int} (h : (t :: ts).Pairwise (· ≤ ·)) :
    ts.dropWhile (fun x => decide (x ≤ t)) = ts.filter fun x => !x == t := by
  induction ts with
  | nil => rfl
  | cons x rest ih =>
    obtain ⟨ht, hx⟩ := List.pairwise_cons.1 h
    obtain ⟨htx, htrest⟩ := List.forall_mem_cons.1 ht
    obtain ⟨hxs, hrest⟩ := List.pairwise_cons.1 hx
    by_cases heq : x = t
    · rw [List.dropWhile_cons, if_pos (by simp [heq]), List.filter_cons, if_neg (by simp [heq]),
        ih (List.pairwise_cons.2 ⟨htrest, hrest⟩)]
    · rw [List.dropWhile_cons, if_neg (by simp; omega), List.filter_cons,
        if_pos (by simp [heq]), List.filter_eq_self.2]
      intro y hy
      have hxy := hxs y hy
      have hne : y ≠ t := by omega
      simp [hne]

/-- **The times of a sorted file** are its maxima, each of them once. -/
theorem strictMaxima_of_sorted : ∀ {times : List Int}, times.Pairwise (· ≤ ·) →
    strictMaxima times = times.eraseDups
  | [], _ => rfl
  | t :: ts, h => by
    have hrest : (ts.filter fun x => !x == t).Pairwise (· ≤ ·) :=
      (List.pairwise_cons.1 h).2.filter _
    rw [strictMaxima_cons, dropWhile_of_sorted h, strictMaxima_of_sorted hrest,
      List.eraseDups_cons]
termination_by times => times.length
decreasing_by exact Nat.lt_succ_of_le (List.length_filter_le _ _)

/-! ## §5. Files that grow block by block. -/

variable {β : Type}

/-- Rows in blocks, the rows of a block at one time. -/
def inBlocks (time : β → Int) (rows : β → List α) (blocks : List β) : List (Int × α) :=
  blocks.flatMap fun b => (rows b).map fun row => (time b, row)

variable {time : β → Int} {rows : β → List α} {blocks : List β}

theorem mem_inBlocks {p : Int × α} :
    p ∈ inBlocks time rows blocks ↔ ∃ b ∈ blocks, time b = p.1 ∧ p.2 ∈ rows b := by
  unfold inBlocks
  simp only [List.mem_flatMap, List.mem_map]
  constructor
  · rintro ⟨b, hb, row, hrow, rfl⟩
    exact ⟨b, hb, rfl, hrow⟩
  · rintro ⟨b, hb, htime, hrow⟩
    exact ⟨b, hb, p.2, hrow, by rw [htime]⟩

/-- **Blocks at later and later times** have their times for maxima, if none
is empty. -/
theorem strictMaxima_inBlocks (h : (blocks.map time).Pairwise (· < ·))
    (hne : ∀ b ∈ blocks, rows b ≠ []) :
    strictMaxima ((inBlocks time rows blocks).map (·.1)) = blocks.map time := by
  induction blocks with
  | nil => rfl
  | cons b rest ih =>
    rw [List.map_cons, List.pairwise_cons] at h
    obtain ⟨hb, hrest⟩ := List.forall_mem_cons.1 hne
    obtain ⟨row, later, hrows⟩ := List.exists_cons_of_ne_nil hb
    have htimes : (inBlocks time rows (b :: rest)).map (·.1) =
        time b :: (later.map fun _ => time b) ++ (inBlocks time rows rest).map (·.1) := by
      simp [inBlocks, hrows, Function.comp_def]
    rw [htimes, List.cons_append, strictMaxima_cons, List.dropWhile_append_of_pos (by simp),
      dropWhile_of_lt_head, ih h.2 hrest, List.map_cons]
    intro x hx
    obtain ⟨p, hp, rfl⟩ := List.mem_map.1 (List.mem_of_mem_head? hx)
    obtain ⟨b', hb', htime, -⟩ := mem_inBlocks.1 hp
    exact htime ▸ h.1 _ (List.mem_map.2 ⟨b', hb', rfl⟩)

/-- **At the time of a block its rows are due**, and no others. -/
theorem dueAt_inBlocks (h : (blocks.map time).Pairwise (· < ·)) {b : β} (hb : b ∈ blocks) :
    dueAt (time b) (inBlocks time rows blocks) = rows b := by
  induction blocks with
  | nil => cases hb
  | cons b' rest ih =>
    rw [List.map_cons, List.pairwise_cons] at h
    have hcons : inBlocks time rows (b' :: rest) =
        (rows b').map (fun row => (time b', row)) ++ inBlocks time rows rest := rfl
    rw [hcons]
    rcases List.mem_cons.1 hb with rfl | hb
    · -- The blocks after it are past its time.
      have hlater : dueAt (time b) (inBlocks time rows rest) = [] := by
        cases hrows : inBlocks time rows rest with
        | nil => rfl
        | cons p later =>
          obtain ⟨b', hb', htime, -⟩ := mem_inBlocks.1 (hrows ▸ List.mem_cons_self)
          exact dueAt_cons_of_lt (htime ▸ h.1 _ (List.mem_map.2 ⟨b', hb', rfl⟩)) later
      rw [dueAt_append (by simp), hlater]
      simp [List.filter_map, Function.comp_def]
    · rw [dueAt_append_of_lt, ih h.2 hb]
      intro p hp
      obtain ⟨row, -, rfl⟩ := List.mem_map.1 hp
      exact h.1 _ (List.mem_map.2 ⟨b, hb, rfl⟩)

end ReportStore

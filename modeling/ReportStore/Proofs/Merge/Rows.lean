/-
  ReportStore.Proofs.Merge.Rows
  ─────────────────────────────
  **WHAT A STEP TAKES FROM ONE FILE.**

  A feed is read as the list of its rows in time: each row that is one, with
  the time it stands at, up to the first whose time cannot be read, for no
  step gets past that.  One pass over a file is then accounted for exactly:

      rows before = rows passed ++ rows left

  with no row passed that is ahead of the watermark, and the fragments that
  were united are those of the passed rows that stand at it.  The account is
  the same for a pass that fails; a pass that succeeds leaves nothing that
  is due.
-/
import ReportStore.Merge
import ReportStore.Proofs.TimeOrder

namespace ReportStore

/-! ## §1. Rows in time. -/

/-- The time a row stands at. -/
def Row.time? (row : Row) : Option Int := timeOfCell? (Feed.timeCell row)

/-- Rows with their times, up to the first that has none. -/
def inTime : List Row → List (Int × Row)
  | [] => []
  | row :: rest =>
    match row.time? with
    | some t => (t, row) :: inTime rest
    | none => []

theorem mem_inTime {p : Int × Row} {rows : List Row} (h : p ∈ inTime rows) :
    p.2 ∈ rows ∧ p.2.time? = some p.1 := by
  induction rows with
  | nil => simp [inTime] at h
  | cons row rest ih =>
    unfold inTime at h
    cases ht : row.time? with
    | none => simp [ht] at h
    | some t =>
      simp only [ht, List.mem_cons] at h
      rcases h with rfl | h
      · exact ⟨List.mem_cons_self, ht⟩
      · exact ⟨List.mem_cons_of_mem _ (ih h).1, (ih h).2⟩

theorem inTime_append {before : List (Int × Row)} (h : ∀ p ∈ before, p.2.time? = some p.1)
    (rows : List Row) : inTime (before.map (·.2) ++ rows) = before ++ inTime rows := by
  induction before with
  | nil => rfl
  | cons p rest ih =>
    have hp : p.2.time? = some p.1 := h p List.mem_cons_self
    simp only [List.map_cons, List.cons_append, inTime, hp,
      ih fun q hq => h q (List.mem_cons_of_mem _ hq)]

/-- The fragments of the rows of a file; a row that the codec refuses has
none. -/
def fragments (codec : Codec) (fileName : String) (rows : List Row) : List Record :=
  rows.filterMap fun row => (codec.ofRow fileName row).toOption

theorem fragments_append (codec : Codec) (fileName : String) (a b : List Row) :
    fragments codec fileName (a ++ b) =
      fragments codec fileName a ++ fragments codec fileName b :=
  List.filterMap_append

theorem filterMap_toOption_ok (rows : List Row) :
    (rows.map (Except.ok (ε := Csv.RowFault))).filterMap Except.toOption = rows := by
  induction rows with
  | nil => rfl
  | cons row rest ih =>
    have hok : (Except.ok row : Except Csv.RowFault Row).toOption = some row := rfl
    rw [List.map_cons, List.filterMap_cons, hok, ih]

/-- A result can be told from what it gives, whatever its faults are. -/
theorem eq_ok_of_toOption {ε α : Type} {x : Except ε α} {a : α} (h : x.toOption = some a) :
    x = .ok a := by
  cases x with
  | error e => cases h
  | ok b =>
    injection h with h
    rw [h]

theorem mem_fragments {codec : Codec} {fileName : String} {rows : List Row} {r : Record}
    (h : r ∈ fragments codec fileName rows) :
    ∃ row ∈ rows, codec.ofRow fileName row = .ok r := by
  obtain ⟨row, hrow, hr⟩ := List.mem_filterMap.1 h
  exact ⟨row, hrow, eq_ok_of_toOption hr⟩

namespace Feed

/-- The rows that are still to come; records that are none are left out. -/
def rows (f : Feed) : List Row :=
  match f.held with
  | none => []
  | some row => row :: f.rest.filterMap Except.toOption

/-- The rows that are still to come, in time. -/
def timed (f : Feed) : List (Int × Row) := inTime f.rows

/-- The fragments that a file adds at a time. -/
def due (codec : Codec) (time : Int) (f : Feed) : List Record :=
  fragments codec f.fileName (dueAt time f.timed)

theorem timed_of_held_none {f : Feed} (h : f.held = none) : f.timed = [] := by
  simp [timed, rows, h, inTime]

/-- The time of the row held heads the rows in time. -/
theorem timed_of_heldTime {f : Feed} {time : Option Int} (h : f.heldTime = .ok time) :
    f.timed.head?.map (·.1) = time := by
  unfold heldTime at h
  cases hheld : f.held with
  | none =>
    rw [hheld] at h
    rw [timed_of_held_none hheld]
    simpa using h
  | some row =>
    rw [hheld] at h
    unfold readTime at h
    cases ht : row.time? with
    | none => simp [Row.time?] at ht; simp [ht, Except.map] at h
    | some t =>
      have hcell : timeOfCell? (timeCell row) = some t := ht
      simp only [hcell, Except.map, Except.ok.injEq] at h
      subst h
      simp [timed, rows, hheld, inTime, ht]

/-! ## §2. One advance. -/

/-- An advance that succeeds takes the row held. -/
theorem rows_of_advance_ok {f next : Feed} {row : Row} {taken : Option Row}
    (hheld : f.held = some row) (h : f.advance = (.ok taken, next)) :
    f.rows = row :: next.rows ∧ next.path = f.path ∧ next.fileName = f.fileName ∧
      next.remaining + 1 = f.remaining := by
  unfold advance at h
  cases hrest : f.rest with
  | nil =>
    simp only [hrest, Prod.mk.injEq] at h
    obtain ⟨-, rfl⟩ := h
    simp [rows, remaining, hheld, hrest]
  | cons x rest =>
    cases x with
    | error e => simp [hrest] at h
    | ok row' =>
      simp only [hrest, Prod.mk.injEq] at h
      obtain ⟨-, rfl⟩ := h
      have hok : (Except.ok row' : Except Csv.RowFault Row).toOption = some row' := rfl
      simp [rows, remaining, hheld, hrest, hok]

/-- **An advance that fails loses no row**: the record that is none is
passed, and the row held stays held. -/
theorem rows_of_advance_error {f next : Feed} {e : Fault} (h : f.advance = (.error e, next)) :
    next.rows = f.rows ∧ next.path = f.path ∧ next.fileName = f.fileName ∧
      ∃ cause, e = .malformedRow f.path cause := by
  unfold advance at h
  cases hrest : f.rest with
  | nil => simp [hrest] at h
  | cons x rest =>
    cases x with
    | ok row' => simp [hrest] at h
    | error cause =>
      simp only [hrest, Prod.mk.injEq, Except.error.injEq] at h
      obtain ⟨rfl, rfl⟩ := h
      refine ⟨?_, rfl, rfl, cause, rfl⟩
      have hnone : (Except.error cause : Except Csv.RowFault Row).toOption = none := rfl
      cases hheld : f.held <;> simp [rows, hheld, hrest, hnone]

/-- An advance that fails passes one record of the file. -/
theorem remaining_of_advance_error {f next : Feed} {e : Fault}
    (h : f.advance = (.error e, next)) : next.remaining + 1 = f.remaining := by
  unfold advance at h
  cases hrest : f.rest with
  | nil => simp [hrest] at h
  | cons x rest =>
    cases x with
    | ok row' => simp [hrest] at h
    | error cause =>
      simp only [hrest, Prod.mk.injEq] at h
      obtain ⟨-, rfl⟩ := h
      simp only [remaining, hrest, List.length_cons]
      omega

/-! ## §3. The account of a pass. -/

/-- What is left of a feed after rows that are not past a time were passed,
and the fragments of those that stand at it. -/
structure Passed (codec : Codec) (w : Int) (f f' : Feed) (taken : List Record) : Prop where
  path : f'.path = f.path
  fileName : f'.fileName = f.fileName
  rows : ∃ before : List (Int × Row), f.rows = before.map (·.2) ++ f'.rows ∧
    (∀ p ∈ before, p.2.time? = some p.1 ∧ p.1 ≤ w) ∧
    taken = fragments codec f.fileName ((before.filter fun p => decide (p.1 = w)).map (·.2))

namespace Passed

variable {codec : Codec} {w : Int} {f g h : Feed} {a b : List Record}

/-- Nothing is passed by a feed with the same rows. -/
theorem of_rows_eq (hp : g.path = f.path) (hn : g.fileName = f.fileName)
    (hr : g.rows = f.rows) : Passed codec w f g [] :=
  ⟨hp, hn, [], by simp [hr], by simp, rfl⟩

/-- The rows that were passed are the first ones in time. -/
theorem timed_eq (hg : Passed codec w f g a) :
    ∃ before, f.timed = before ++ g.timed ∧ (∀ p ∈ before, p.1 ≤ w) ∧
      a = fragments codec f.fileName ((before.filter fun p => decide (p.1 = w)).map (·.2)) := by
  obtain ⟨before, hrows, hbefore, htaken⟩ := hg.rows
  refine ⟨before, ?_, fun p hp => (hbefore p hp).2, htaken⟩
  unfold timed
  rw [hrows, inTime_append fun p hp => (hbefore p hp).1]

theorem refl (codec : Codec) (w : Int) (f : Feed) : Passed codec w f f [] := of_rows_eq rfl rfl rfl

theorem trans (h₁ : Passed codec w f g a) (h₂ : Passed codec w g h b) :
    Passed codec w f h (a ++ b) := by
  obtain ⟨x, hx, hxw, rfl⟩ := h₁.rows
  obtain ⟨y, hy, hyw, rfl⟩ := h₂.rows
  refine ⟨h₂.path.trans h₁.path, h₂.fileName.trans h₁.fileName, x ++ y, ?_, ?_, ?_⟩
  · rw [hx, hy, List.map_append, List.append_assoc]
  · intro p hp
    rcases List.mem_append.1 hp with hp | hp
    · exact hxw p hp
    · exact hyw p hp
  · rw [h₁.fileName, List.filter_append, List.map_append, fragments_append]

/-- Rows that are not past a time are not past a later one. -/
theorem mono {v : Int} (hg : Passed codec v f g a) (hvw : v ≤ w) :
    ∃ b, Passed codec w f g b := by
  obtain ⟨before, hrows, hbefore, -⟩ := hg.rows
  refine ⟨_, hg.path, hg.fileName, before, hrows, ?_, rfl⟩
  intro p hp
  obtain ⟨htime, hv⟩ := hbefore p hp
  exact ⟨htime, by omega⟩

/-- **The account at the watermark**: what was due is what was taken and
what is left. -/
theorem due_eq (hg : Passed codec w f g a) : f.due codec w = a ++ g.due codec w := by
  obtain ⟨x, hx, hxw, rfl⟩ := hg.timed_eq
  unfold due
  rw [hx, dueAt_append hxw, fragments_append, hg.fileName]

/-- Ahead of the watermark everything is still there. -/
theorem due_of_lt (hg : Passed codec w f g a) {time : Int} (ht : w < time) :
    g.due codec time = f.due codec time := by
  obtain ⟨x, hx, hxw, -⟩ := hg.timed_eq
  have hlt : ∀ p ∈ x, p.1 < time := fun p hp => Int.lt_of_le_of_lt (hxw p hp) ht
  unfold due
  rw [hx, dueAt_append_of_lt hlt, hg.fileName]

end Passed

/-- A pass over one row that is not past the watermark. -/
theorem passed_of_advance (codec : Codec) {w t : Int} {f next : Feed} {row : Row}
    {taken : Option Row} (hheld : f.held = some row) (ht : row.time? = some t) (hw : t ≤ w)
    (h : f.advance = (.ok taken, next)) :
    Passed codec w f next (if t = w then fragments codec f.fileName [row] else []) := by
  obtain ⟨hrows, hp, hn, -⟩ := rows_of_advance_ok hheld h
  refine ⟨hp, hn, [(t, row)], hrows, ?_, ?_⟩
  · intro p hp
    rw [List.mem_singleton.1 hp]
    exact ⟨ht, hw⟩
  · by_cases htw : t = w
    · simp [htw]
    · simp [htw, fragments]

end Feed

/-! ## §4. One pass as a derivation. -/

namespace Merge

/-- The pass over a file, one case for each thing a pass can meet.  The bound
of the recursion is gone: a file ends before it is met. -/
inductive Draining (codec : Codec) (strictness : Strictness) (w : Int) :
    Feed → Record → Drained → Prop where
  /-- No row is left. -/
  | exhausted {f : Feed} {merged : Record} (held : f.held = none) :
      Draining codec strictness w f merged ⟨.ok none, f, merged, []⟩
  /-- The time of the row held cannot be read. -/
  | unreadable {f : Feed} {merged : Record} {row : Row} (held : f.held = some row)
      (time : row.time? = none) :
      Draining codec strictness w f merged
        ⟨.error (.badTimestamp f.path (Feed.timeCell row)), f, merged, []⟩
  /-- The row held is ahead of the watermark. -/
  | waiting {f : Feed} {merged : Record} {row : Row} {t : Int} (held : f.held = some row)
      (time : row.time? = some t) (ahead : w < t) :
      Draining codec strictness w f merged ⟨.ok (some t), f, merged, []⟩
  /-- The row held is behind the watermark of a strict merge. -/
  | late {f : Feed} {merged : Record} {row : Row} {t : Int} (held : f.held = some row)
      (time : row.time? = some t) (behind : t < w) (strict : strictness = .strict) :
      Draining codec strictness w f merged ⟨.error (.outOfOrder f.path t w), f, merged, []⟩
  /-- The record after the row held is no row. -/
  | malformed {f next : Feed} {merged : Record} {row : Row} {t : Int} {e : Fault}
      (held : f.held = some row) (time : row.time? = some t) (reached : t ≤ w)
      (advance : f.advance = (.error e, next)) :
      Draining codec strictness w f merged ⟨.error e, next, merged, []⟩
  /-- The row held is behind the watermark of a lenient merge. -/
  | skipped {f next : Feed} {merged : Record} {row : Row} {t : Int} {took : Option Row}
      {d : Drained} (held : f.held = some row) (time : row.time? = some t) (behind : t < w)
      (lenient : strictness = .lenient) (advance : f.advance = (.ok took, next))
      (later : Draining codec strictness w next merged d) :
      Draining codec strictness w f merged (d.after (skippedSignals f.path t w))
  /-- The codec refuses the row held. -/
  | refused {f next : Feed} {merged : Record} {row : Row} {took : Option Row} {e : Fault}
      (held : f.held = some row) (time : row.time? = some w)
      (advance : f.advance = (.ok took, next)) (decoded : codec.ofRow f.fileName row = .error e) :
      Draining codec strictness w f merged ⟨.error e, next, merged, []⟩
  /-- The row held is united with the record. -/
  | united {f next : Feed} {merged fragment : Record} {row : Row} {took : Option Row}
      {d : Drained} (held : f.held = some row) (time : row.time? = some w)
      (advance : f.advance = (.ok took, next))
      (decoded : codec.ofRow f.fileName row = .ok fragment)
      (later : Draining codec strictness w next (Record.union merged fragment) d) :
      Draining codec strictness w f merged (d.after [.count .rowsRead])

/-- What is to be done with a row is decided by its time. -/
theorem verdict_eq (strictness : Strictness) (w : Int) (path : String) (row : Row) :
    verdict strictness w path row =
      match row.time? with
      | none => .refuse (.badTimestamp path (Feed.timeCell row))
      | some t =>
        if w < t then .wait t
        else if t = w then .take
        else
          match strictness with
          | .lenient => .skip t
          | .strict => .refuse (.outOfOrder path t w) := by
  unfold verdict readTime Row.time?
  cases timeOfCell? (Feed.timeCell row) <;> rfl

/-- A pass that looks at no fewer records than the file has left. -/
theorem drainWithin_draining (codec : Codec) (strictness : Strictness) (w : Int) :
    ∀ (limit : Nat) (f : Feed) (merged : Record), f.remaining ≤ limit →
      Draining codec strictness w f merged (drainWithin codec strictness w limit f merged) := by
  intro limit
  induction limit with
  | zero =>
    intro f merged hlimit
    -- A bound of none is only met where no row is left.
    have hheld : f.held = none := by
      cases hf : f.held with
      | none => rfl
      | some row => simp [Feed.remaining, hf] at hlimit
    exact .exhausted hheld
  | succ limit ih =>
    intro f merged hlimit
    unfold drainWithin
    cases hheld : f.held with
    | none => exact .exhausted hheld
    | some row =>
      simp only [verdict_eq]
      cases ht : row.time? with
      | none => exact .unreadable hheld ht
      | some t =>
        by_cases hahead : w < t
        · simp only [if_pos hahead]
          exact .waiting hheld ht hahead
        · have hreached : t ≤ w := by omega
          by_cases hdue : t = w
          · subst hdue
            simp only [if_neg hahead, if_true]
            cases hadv : f.advance with
            | mk result next =>
              cases result with
              | error e => exact .malformed hheld ht hreached hadv
              | ok took =>
                obtain ⟨-, -, -, hleft⟩ := Feed.rows_of_advance_ok hheld hadv
                cases hrow : codec.ofRow f.fileName row with
                | error e => exact .refused hheld ht hadv hrow
                | ok fragment =>
                  exact .united hheld ht hadv hrow (ih next _ (by omega))
          · have hbehind : t < w := by omega
            simp only [if_neg hahead, if_neg hdue]
            cases hs : strictness with
            | strict => exact .late hheld ht hbehind rfl
            | lenient =>
              subst hs
              cases hadv : f.advance with
              | mk result next =>
                cases result with
                | error e => exact .malformed hheld ht hreached hadv
                | ok took =>
                  obtain ⟨-, -, -, hleft⟩ := Feed.rows_of_advance_ok hheld hadv
                  exact .skipped hheld ht hbehind rfl hadv (ih next _ (by omega))

/-- **The pass over a file is derived by the rules above.** -/
theorem drain_draining (codec : Codec) (strictness : Strictness) (w : Int) (f : Feed)
    (merged : Record) :
    Draining codec strictness w f merged (drain codec strictness w f merged) :=
  drainWithin_draining codec strictness w f.remaining f merged (Nat.le_refl _)

/-! ## §5. What follows for every pass. -/

variable {codec : Codec} {strictness : Strictness} {w : Int} {f : Feed} {merged : Record}
  {d : Drained}

/-- **The account of a pass**, whatever it comes to. -/
theorem Draining.passed (h : Draining codec strictness w f merged d) :
    ∃ taken, f.Passed codec w d.feed taken ∧ d.merged = taken.foldl Record.union merged := by
  induction h with
  | exhausted | unreadable | waiting | late => exact ⟨[], .refl codec w _, rfl⟩
  | malformed _ _ _ advance =>
    -- The record that is no row was never one of the rows.
    obtain ⟨hrows, hpath, hname, -⟩ := Feed.rows_of_advance_error advance
    exact ⟨[], .of_rows_eq hpath hname hrows, rfl⟩
  | skipped held time behind _ advance _ ih =>
    have hpass := Feed.passed_of_advance codec held time (Int.le_of_lt behind) advance
    rw [if_neg (Int.ne_of_lt behind)] at hpass
    obtain ⟨taken, hlater, hmerged⟩ := ih
    exact ⟨taken, hpass.trans hlater, hmerged⟩
  | @refused f next _ row _ e held time advance decoded =>
    have hpass := Feed.passed_of_advance codec held time (Int.le_refl _) advance
    -- The row is gone, and with it nothing that could have been united.
    have hnone : fragments codec f.fileName [row] = [] := by
      simp [fragments, decoded, Except.toOption]
    rw [if_pos rfl, hnone] at hpass
    exact ⟨[], hpass, rfl⟩
  | @united f next _ fragment row _ d held time advance decoded _ ih =>
    have hpass := Feed.passed_of_advance codec held time (Int.le_refl _) advance
    have hone : fragments codec f.fileName [row] = [fragment] := by
      simp [fragments, decoded, Except.toOption]
    rw [if_pos rfl, hone] at hpass
    obtain ⟨taken, hlater, hmerged⟩ := ih
    exact ⟨fragment :: taken, hpass.trans hlater, hmerged⟩

/-- **A pass that unites something looks at a record of the file**, and none comes
back. -/
theorem Draining.remaining_le (h : Draining codec strictness w f merged d) :
    d.feed.remaining ≤ f.remaining ∧ (d.merged = merged ∨ d.feed.remaining < f.remaining) := by
  induction h with
  | exhausted | unreadable | waiting | late => exact ⟨Nat.le_refl _, .inl rfl⟩
  | @malformed f next _ _ _ _ _ _ _ advance =>
    have hleft := Feed.remaining_of_advance_error advance
    have hle : next.remaining ≤ f.remaining := by omega
    exact ⟨hle, .inl rfl⟩
  | @refused f next _ _ _ _ held _ advance _ =>
    obtain ⟨-, -, -, hleft⟩ := Feed.rows_of_advance_ok held advance
    have hle : next.remaining ≤ f.remaining := by omega
    exact ⟨hle, .inl rfl⟩
  | @skipped f next _ _ _ _ d held _ _ _ advance _ ih =>
    obtain ⟨-, -, -, hleft⟩ := Feed.rows_of_advance_ok held advance
    have hlt : d.feed.remaining < f.remaining := by omega
    exact ⟨Nat.le_of_lt hlt, .inr hlt⟩
  | @united f next _ _ _ _ d held _ advance _ _ ih =>
    obtain ⟨-, -, -, hleft⟩ := Feed.rows_of_advance_ok held advance
    have hlt : d.feed.remaining < f.remaining := by omega
    exact ⟨Nat.le_of_lt hlt, .inr hlt⟩

/-- **A pass that succeeds stops at the first row ahead of the watermark**,
or at the end of the file. -/
theorem Draining.heldTime (h : Draining codec strictness w f merged d) {waiting : Option Int}
    (hok : d.result = .ok waiting) : d.feed.heldTime = .ok waiting ∧ ∀ t ∈ waiting, w < t := by
  induction h with
  | exhausted held =>
    cases hok
    simp [Feed.heldTime, held]
  | @waiting f _ row t held time ahead =>
    cases hok
    have hcell : timeOfCell? (Feed.timeCell row) = some t := time
    simp [Feed.heldTime, held, readTime, hcell, Except.map, ahead]
  | unreadable | late | malformed | refused => cases hok
  | skipped _ _ _ _ _ _ ih | united _ _ _ _ _ ih => exact ih hok

/-- Before its first row is reached, no row of a file is due. -/
theorem dueAt_of_heldTime {waiting : Option Int} (hheld : f.heldTime = .ok waiting)
    (hahead : ∀ t ∈ waiting, w < t) : dueAt w f.timed = [] := by
  have hhead := Feed.timed_of_heldTime hheld
  cases htimed : f.timed with
  | nil => rfl
  | cons p rest =>
    rw [htimed] at hhead
    have hw : w < p.1 := hahead p.1 hhead.symm
    exact dueAt_cons_of_lt hw rest

/-- A pass that succeeds leaves no row that is due. -/
theorem Draining.dueAt_eq_nil (h : Draining codec strictness w f merged d) {waiting : Option Int}
    (hok : d.result = .ok waiting) : dueAt w d.feed.timed = [] := by
  obtain ⟨hheld, hahead⟩ := h.heldTime hok
  exact dueAt_of_heldTime hheld hahead

theorem Draining.due_eq_nil (h : Draining codec strictness w f merged d) {waiting : Option Int}
    (hok : d.result = .ok waiting) : d.feed.due codec w = [] := by
  unfold Feed.due
  rw [h.dueAt_eq_nil hok]
  rfl

end Merge

end ReportStore

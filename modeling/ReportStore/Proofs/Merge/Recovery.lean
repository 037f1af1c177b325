/-
  ReportStore.Proofs.Merge.Recovery
  ─────────────────────────────────
  **WHAT A CALL THAT FAILS ON A ROW COSTS.**

  A call that fails leaves the merge connected, and the next one goes on at
  the same watermark.  The measure of what was lost is the run over the
  mended files: the same files without the records that calls failed on,
  that is, without the ones passed so far that are no rows or that the codec
  refuses.  `Recovers` asks for two things of the calls after a failure:

    • a record has every row that the mended files would give it,
    • the stream does not end before a time that they would give it.

  Neither holds in general, for a call that fails drops the rows that it had
  united.  `recovers_iff` says when they do hold.
-/
import ReportStore.Proofs.Merge.Opening
import ReportStore.Proofs.Merge.Run
import ReportStore.Codec.Power

namespace ReportStore

/-! ## §1. Mended files. -/

namespace Feed

/-- The records that are still to come, the row held first. -/
def records (f : Feed) : List (Except Csv.RowFault Row) :=
  match f.held with
  | none => []
  | some row => .ok row :: f.rest

/-- The feed of the same file with other records to come. -/
def withRecords (f : Feed) : List (Except Csv.RowFault Row) → Feed
  | .ok row :: rest => { f with held := some row, rest }
  | _ => { f with held := none, rest := [] }

/-- A feed without the records that calls failed on until it was left as
another: the rows that the codec took, and all that is left. -/
def mended (codec : Codec) (f left : Feed) : Feed :=
  let passed := f.rows.take (f.rows.length - left.rows.length)
  let taken := passed.filter fun row => (codec.ofRow f.fileName row).isOk
  f.withRecords (taken.map Except.ok ++ left.records)

end Feed

/-- A registered file, mended. -/
def Source.mended (codec : Codec) (s left : Source) : Source :=
  match s.feed, left.feed with
  | some f, some g => ⟨s.path, some (f.mended codec g)⟩
  | _, _ => ⟨s.path, none⟩

/-- The merge of the mended files at its start. -/
def Merge.mended (codec : Codec) (m left : Merge) : Merge :=
  let sources := List.zipWith (Source.mended codec) m.sources left.sources
  { m with sources, phase := .connected (primaryTimes sources).head? }

/-- Rows that the codec refuses have no fragment to lose. -/
theorem fragments_filter_isOk (codec : Codec) (fileName : String) (rows : List Row) :
    fragments codec fileName (rows.filter fun row => (codec.ofRow fileName row).isOk) =
      fragments codec fileName rows := by
  unfold fragments
  rw [List.filterMap_filter]
  congr 1
  funext row
  rcases codec.ofRow fileName row with e | r
  · rfl
  · rfl

namespace Feed

@[simp] theorem withRecords_fileName (f : Feed) (records : List (Except Csv.RowFault Row)) :
    (f.withRecords records).fileName = f.fileName := by
  unfold withRecords
  split <;> rfl

theorem rows_withRecords (f g : Feed) (rows : List Row) :
    (f.withRecords (rows.map Except.ok ++ g.records)).rows = rows ++ g.rows := by
  have hrows : g.rows = g.records.filterMap Except.toOption := by
    unfold Feed.rows Feed.records
    cases g.held with
    | none => rfl
    | some row => rfl
  cases rows with
  | cons row later =>
    show row :: (later.map Except.ok ++ g.records).filterMap Except.toOption = _
    rw [List.filterMap_append, filterMap_toOption_ok, ← hrows]
    rfl
  | nil =>
    unfold Feed.records Feed.rows
    cases g.held with
    | none => rfl
    | some row => rfl

/-- **Mending a file changes nothing at the watermark**: the records that are
left out had no fragment, and none of them is ahead. -/
theorem due_mended {codec : Codec} {w : Int} {f g : Feed} {taken : List Record}
    (h : f.Passed codec w g taken) : (f.mended codec g).due codec w = f.due codec w := by
  obtain ⟨before, hrows, hbefore, -⟩ := h.rows
  have htake : f.rows.take (f.rows.length - g.rows.length) = before.map (·.2) := by
    rw [hrows, List.length_append, Nat.add_sub_cancel, List.take_left]
  let kept := before.filter fun p => (codec.ofRow f.fileName p.2).isOk
  have hkept : ∀ p ∈ kept, p ∈ before := fun p hp => (List.mem_filter.1 hp).1
  -- Before what is left, a mended file has the passed rows that were taken.
  have hmended : (f.mended codec g).rows = kept.map (·.2) ++ g.rows := by
    unfold mended
    rw [htake, rows_withRecords, List.filter_map]
    rfl
  have hname : (f.mended codec g).fileName = f.fileName := withRecords_fileName f _
  unfold due timed
  rw [hname, hmended, hrows, inTime_append fun p hp => (hbefore p hp).1,
    inTime_append fun p hp => (hbefore p (hkept p hp)).1,
    dueAt_append fun p hp => (hbefore p hp).2, dueAt_append fun p hp => (hbefore p (hkept p hp)).2,
    fragments_append, fragments_append]
  congr 1
  -- Of the rows at the watermark the refused ones are filtered out.
  have hcomm : kept.filter (fun p => decide (p.1 = w)) =
      (before.filter fun p => decide (p.1 = w)).filter
        fun p => (codec.ofRow f.fileName p.2).isOk := by
    show (before.filter _).filter _ = _
    rw [List.filter_filter, List.filter_filter]
    congr 1
    funext p
    exact Bool.and_comm _ _
  rw [hcomm, ← fragments_filter_isOk codec f.fileName (List.map _ (before.filter _)),
    List.filter_map]
  rfl

end Feed

theorem SourcesPassed.due_mended {codec : Codec} {w : Int} {ss ss' : List Source}
    (h : SourcesPassed codec w ss ss') :
    dueFrom codec w (List.zipWith (Source.mended codec) ss ss') = dueFrom codec w ss := by
  induction h with
  | nil => rfl
  | closed _ ih =>
    unfold dueFrom at ih ⊢
    simp only [List.zipWith_cons_cons, List.flatMap_cons, ih, Source.mended, Source.due]
  | opened first _ ih =>
    unfold dueFrom at ih ⊢
    simp only [List.zipWith_cons_cons, List.flatMap_cons, ih, Source.mended, Source.due,
      Feed.due_mended first]

namespace Merge

variable {codec : Codec} {m : Merge}

/-! ## §2. What recovering means. -/

/-- A call that fails because a record of a file is no row, or because the
codec refuses it. -/
def FailedOnRow (codec : Codec) (m : Merge) (k : Nat) : Prop :=
  ∃ e, ((m.after codec k).next codec).result = .error e ∧
    ((∃ path cause, e = .malformedRow path cause) ∨ ∃ cause, e = .codec cause)

/-- A call that ends the stream. -/
def Ends (codec : Codec) (m : Merge) (k : Nat) : Prop :=
  (∃ w, (m.after codec k).phase = .connected w) ∧ ((m.after codec k).next codec).result = .ok none

/-- A call that hands out a record at a time, none having failed before. -/
def Produces (codec : Codec) (m : Merge) (i : Nat) (time : Int) : Prop :=
  (∀ j, j < i → ¬ Failed codec m j) ∧ ∃ r, Hands codec m i time r

/-- The mended files of a run, as far as a call has come. -/
def mendedAt (codec : Codec) (m : Merge) (k : Nat) : Merge := m.mended codec (m.after codec k)

/-- A failed call costs the record it failed on and no more. -/
structure Recovers (codec : Codec) (m : Merge) : Prop where
  /-- A record has every row that the mended files would give it. -/
  rows : ∀ k time r, (∃ j, j < k ∧ FailedOnRow codec m j) → Hands codec m k time r →
    ∀ i, Produces codec (m.mendedAt codec k) i time →
      (((m.mendedAt codec k).after codec i).due codec time).Sublist
        ((m.after codec k).due codec time)
  /-- Every time that the mended files would give comes before the end. -/
  times : ∀ k, (∃ j, j < k ∧ FailedOnRow codec m j) → Ends codec m k →
    ∀ i time, Produces codec (m.mendedAt codec k) i time → Handed codec m k time

/-- No failed call had anything to lose. -/
structure Unharmed (codec : Codec) (m : Merge) : Prop where
  /-- A call that failed at the time of a later record had united no row. -/
  rows : ∀ k time r, (∃ j, j < k ∧ FailedOnRow codec m j) → Hands codec m k time r →
    (∃ i, Produces codec (m.mendedAt codec k) i time) →
      ∀ j, j < k → Failed codec m j → (m.after codec j).phase = .connected (some time) →
        (m.after codec (j + 1)).due codec time = (m.after codec j).due codec time
  /-- A time that the mended files would give is a maximum of the primary file
  as it is, and not one at which the stream ends without a record, or past it. -/
  times : ∀ k w, (∃ j, j < k ∧ FailedOnRow codec m j) → Ends codec m k →
    (m.after codec k).phase = .connected (some w) →
      ∀ i time, Produces codec (m.mendedAt codec k) i time →
        time ∈ strictMaxima m.times ∧ (time < w ∨ Handed codec m k w)

/-! ## §3. When a merge recovers. -/

/-- Only a call at a watermark can fail. -/
theorem Failed.phase {k : Nat} (h : Failed codec m k) :
    ∃ v, (m.after codec k).phase = .connected (some v) := by
  obtain ⟨e, hresult⟩ := h
  exact phase_of_result (by rw [hresult]; nofun)

/-- After a watermark there is a watermark, until the stream ends. -/
theorem phase_after {j : Nat} {v : Int} (hv : (m.after codec j).phase = .connected (some v)) :
    ∀ {k : Nat}, j ≤ k → (∃ w, (m.after codec k).phase = .connected (some w)) ∨
      (m.after codec k).phase = .ended := by
  intro k
  induction k with
  | zero =>
    intro hjk
    obtain rfl : j = 0 := by omega
    exact .inl ⟨v, hv⟩
  | succ k ih =>
    intro hjk
    by_cases hj : j = k + 1
    · subst hj
      exact .inl ⟨v, hv⟩
    · show (∃ w, ((m.after codec k).next codec).state.phase = .connected (some w)) ∨
        ((m.after codec k).next codec).state.phase = .ended
      rcases ih (by omega) with ⟨w, hw⟩ | hended
      · -- A failure, the end of the stream, or a record.
        rcases next_cases codec hw with ⟨e, -, -, hs⟩ | ⟨-, -, -, hs⟩ | ⟨-, -, -, hs⟩
        · exact .inl ⟨w, by rw [hs]; exact hw⟩
        · exact .inr (by rw [hs])
        · exact .inl ⟨_, by rw [hs]⟩
      · exact .inr (by rw [next_of_ended codec hended]; exact hended)

/-- The stream of a run with a failure ends at a watermark. -/
theorem Ends.phase {k : Nat} (h : Ends codec m k) (hfailed : ∃ j, j < k ∧ FailedOnRow codec m j) :
    ∃ w, (m.after codec k).phase = .connected (some w) := by
  obtain ⟨j, hj, e, hresult, -⟩ := hfailed
  obtain ⟨v, hv⟩ := Failed.phase ⟨e, hresult⟩
  rcases phase_after hv (Nat.le_of_lt hj) with hw | hended
  · exact hw
  · obtain ⟨⟨w, hw⟩, -⟩ := h
    rw [hended] at hw
    cases hw

/-- **What the mended files give at a time** is what the files as they are had
at it before any call. -/
theorem due_of_produces {k i : Nat} {time : Int} {r : Record} (hhands : Hands codec m k time r)
    (hproduces : Produces codec (m.mendedAt codec k) i time) :
    ((m.mendedAt codec k).after codec i).due codec time = m.due codec time := by
  obtain ⟨hnone, r', hr'⟩ := hproduces
  rw [due_eq_of_hands hr' fun j hj hfailed => absurd hfailed (hnone j hj)]
  exact (passed_before hhands.1).due_mended

/-- **A record has all rows of its time iff no call before it lost one.** -/
theorem sublist_due_iff {k : Nat} {time : Int} {r : Record} (hhands : Hands codec m k time r) :
    (m.due codec time).Sublist ((m.after codec k).due codec time) ↔
      ∀ j, j < k → Failed codec m j → (m.after codec j).phase = .connected (some time) →
        (m.after codec (j + 1)).due codec time = (m.after codec j).due codec time := by
  constructor
  · intro hsub j hj hfailed hphase
    -- What is due only gets less, and by now none of it is gone.
    have hk := hhands.1
    obtain ⟨v, hv, hvt, hlater⟩ := before_watermark (Nat.zero_le j) hphase
    obtain ⟨-, -, -, hlast⟩ := before_watermark (j := j + 1) hj hk
    obtain ⟨lost, hlost⟩ := hlater time (Int.le_refl _)
    obtain ⟨e, hresult⟩ := hfailed
    obtain ⟨-, -, taken, htaken⟩ := next_error hphase hresult
    obtain ⟨lost', hlost'⟩ := hlast time (Int.le_refl _)
    have hstart : m.due codec time = lost ++ (m.after codec j).due codec time := hlost
    have hstep : (m.after codec j).due codec time =
        taken ++ (m.after codec (j + 1)).due codec time := htaken
    have hlength := hsub.length_le
    rw [hstart, hstep, hlost', List.length_append, List.length_append, List.length_append]
      at hlength
    have htaken' : taken.length = 0 := by omega
    rw [hstep, List.length_eq_zero_iff.1 htaken']
    rfl
  · intro hkept
    have hdue := due_eq_of_hands hhands hkept
    exact hdue ▸ List.Sublist.refl _

/-- A merge that was connected and not read from recovers iff no failed call
had anything to lose. -/
theorem recovers_iff_of_fresh (hfresh : ∀ w, m.phase = .connected w → w = m.times.head?) :
    Recovers codec m ↔ Unharmed codec m := by
  have hhanded : ∀ {k w}, (m.after codec k).phase = .connected (some w) → ∀ time,
      (Handed codec m k time ↔ time ∈ strictMaxima m.times ∧ (time < w ∨ Handed codec m k w)) := by
    intro k w hw time
    obtain ⟨v, hv, -, -⟩ := before_watermark (Nat.zero_le k) hw
    have hphase : m.phase = .connected (some v) := hv
    exact handed_iff (by rw [hphase, hfresh _ hphase]) hw time
  constructor
  · intro h
    refine ⟨?_, ?_⟩
    · intro k time r hfailed hhands hproduces
      obtain ⟨i, hi⟩ := hproduces
      have hsub := h.rows k time r hfailed hhands i hi
      rw [due_of_produces hhands hi] at hsub
      exact (sublist_due_iff hhands).1 hsub
    · intro k w hfailed hends hw i time hi
      exact (hhanded hw time).1 (h.times k hfailed hends i time hi)
  · intro h
    refine ⟨?_, ?_⟩
    · intro k time r hfailed hhands i hi
      rw [due_of_produces hhands hi]
      exact (sublist_due_iff hhands).2 (h.rows k time r hfailed hhands ⟨i, hi⟩)
    · intro k hfailed hends i time hi
      obtain ⟨w, hw⟩ := hends.phase hfailed
      exact (hhanded hw time).2 (h.times k w hfailed hends hw i time hi)

/-- Connecting sets the watermark to the first time of the primary file. -/
theorem phase_connect (t : FileTree) (m : Merge) (w : Option Int)
    (h : (m.connect t).state.phase = .connected w) : w = (m.connect t).state.times.head? := by
  have hfirst : ∀ ss, firstWatermark ss = .ok w → w = (primaryTimes ss).head? := by
    intro ss hss
    rcases ss with _ | ⟨⟨path, feed⟩, rest⟩
    · injection hss with hss
      exact hss.symm
    · rcases feed with _ | f
      · injection hss with hss
        exact hss.symm
      · show w = (f.timed.map (·.1)).head?
        rw [List.head?_map]
        exact (Feed.timed_of_heldTime hss).symm
  rcases m.connect_cases t with ⟨e, -, -, hs⟩ | ⟨e, -, -, -, hs⟩ | ⟨w', -, hw, -, hs⟩
  · rw [hs] at h
    cases h
  · rw [hs] at h
    cases h
  · rw [hs] at h ⊢
    injection h with h
    subst h
    exact hfirst _ hw

/-- **When the stream of some files recovers from failed calls.**  A call that
fails on a row leaves the merge where it was, and every record is the union
of what is due when it is handed out.  Going on costs no more than the rows
that calls failed on iff no failed call had united a row of a time that is
handed out after it, and the stream leaves out no time: none that stands in
the primary file behind a refused row, and none from a watermark on whose
rows were all lost. -/
theorem recovers_iff (t : FileTree) (codec : Codec) (m : Merge) :
    let start := (m.connect t).state
    (∀ k, FailedOnRow codec start k →
      (start.after codec (k + 1)).phase = (start.after codec k).phase) ∧
    (∀ k time r, Hands codec start k time r →
      r = Record.unionAll ((start.after codec k).due codec time)) ∧
    (Recovers codec start ↔ Unharmed codec start) := by
  intro start
  refine ⟨?_, ?_, recovers_iff_of_fresh (phase_connect t m)⟩
  · rintro k ⟨e, hresult, -⟩
    obtain ⟨v, hv⟩ := Failed.phase ⟨e, hresult⟩
    exact (next_error hv hresult).1
  · rintro k time r ⟨hphase, hresult⟩
    exact (next_some hphase hresult).1

/-! ## §4. A record that lost a row. -/

/-- A primary file, and one with a record behind its first row that is none. -/
def brokenPair : FileTree :=
  ⟨[(["P.csv"], .file (Text.encode
      "timestamp,sensor,target,socket,cpu,a\n1,s,t,0,0,10\n2,s,t,0,0,20\n")),
    (["S.csv"], .file (Text.encode
      "timestamp,sensor,target,socket,cpu,b\n1,s,t,0,0,100\n1,s,t\n"))]⟩

/-- The two files, connected. -/
def brokenStart : Merge :=
  ((((new .lenient).add "P.csv").add "S.csv").connect brokenPair).state

theorem exists_hands {k : Nat} {time : Int}
    (hphase : (m.after codec k).phase = .connected (some time))
    (hsome : ((m.after codec k).next codec).result.toOption.join.isSome = true) :
    ∃ r, Hands codec m k time r := by
  cases hresult : ((m.after codec k).next codec).result with
  | error e =>
    rw [hresult] at hsome
    cases hsome
  | ok handed =>
    cases handed with
    | none =>
      rw [hresult] at hsome
      cases hsome
    | some r => exact ⟨r, hphase, hresult⟩

theorem failedOnRow_of_malformed {k : Nat}
    (h : (match ((m.after codec k).next codec).result with
      | .error (.malformedRow _ _) => true
      | _ => false) = true) : FailedOnRow codec m k := by
  unfold FailedOnRow
  split at h
  · next path cause hresult => exact ⟨_, hresult, .inl ⟨path, cause, rfl⟩⟩
  · cases h

/-- The first call takes the row of the primary file and then fails on the
other one; the second hands out the record of the time without that row. -/
theorem not_recovers_brokenPair : ¬ Recovers Codec.power brokenStart := by
  intro h
  have hfailed : FailedOnRow Codec.power brokenStart 0 :=
    failedOnRow_of_malformed (by decide +kernel)
  obtain ⟨r, hhands⟩ : ∃ r, Hands Codec.power brokenStart 1 1 r :=
    exists_hands (by decide +kernel) (by decide +kernel)
  have hproduces : Produces Codec.power (brokenStart.mendedAt Codec.power 1) 0 1 := by
    refine ⟨?_, exists_hands (by decide +kernel) (by decide +kernel)⟩
    intro j hj
    omega
  have hsub := h.rows 1 1 r ⟨0, by omega, hfailed⟩ hhands 0 hproduces
  -- One row is left of the two that the mended files have at the time.
  have hone : ((brokenStart.after Codec.power 1).due Codec.power 1).length = 1 := by
    decide +kernel
  have htwo : (((brokenStart.mendedAt Codec.power 1).after Codec.power 0).due
      Codec.power 1).length = 2 := by
    decide +kernel
  have hlength := hsub.length_le
  omega

end Merge

end ReportStore

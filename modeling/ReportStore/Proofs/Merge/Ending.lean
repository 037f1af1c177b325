/-
  ReportStore.Proofs.Merge.Ending
  ───────────────────────────────
  **WHAT THE END OF A STREAM LEAVES BEHIND.**

  A stream ends at a watermark whose rows come to an empty union.  As a rule
  that is because there are none: the record of the last time was handed out,
  and the watermark could not move.  But a codec may make an empty record of
  a row, and then the stream ends at a time that has rows, with all that the
  primary file holds past it.  The account of the primary file is kept by two
  counts, whatever a call comes to:

      rows taken + rows left = rows at the start

  so an end leaves nothing behind iff no time but the last has an empty
  union.
-/
import ReportStore.Proofs.Merge.Recovery

namespace ReportStore

/-! ## §1. The rows of the primary file. -/

/-- The rows of the primary file that are still to come. -/
def primaryRows : List Source → List Row
  | ⟨_, some f⟩ :: _ => f.rows
  | _ => []

/-- How many rows of the primary file were taken. -/
def primaryTaken : List Source → Nat
  | ⟨_, some f⟩ :: _ => f.taken
  | _ => 0

namespace Feed

/-- An advance that succeeds counts the row that it takes. -/
theorem taken_of_advance_ok {f next : Feed} {row : Row} {took : Option Row}
    (hheld : f.held = some row) (h : f.advance = (.ok took, next)) :
    next.taken = f.taken + 1 := by
  unfold advance at h
  cases hrest : f.rest with
  | nil =>
    simp only [hrest, hheld, Option.isSome_some, if_true, Prod.mk.injEq] at h
    rw [← h.2]
  | cons x rest =>
    cases x with
    | error e => simp [hrest] at h
    | ok row' =>
      simp only [hrest, hheld, Option.isSome_some, if_true, Prod.mk.injEq] at h
      rw [← h.2]

/-- An advance that fails counts nothing. -/
theorem taken_of_advance_error {f next : Feed} {e : Fault} (h : f.advance = (.error e, next)) :
    next.taken = f.taken := by
  unfold advance at h
  cases hrest : f.rest with
  | nil => simp [hrest] at h
  | cons x rest =>
    cases x with
    | ok row' => simp [hrest] at h
    | error cause =>
      simp only [hrest, Prod.mk.injEq] at h
      rw [← h.2]

/-- A feed whose row can be placed in time has rows iff it has rows in time. -/
theorem rows_eq_nil_of_timed {f : Feed} {time : Option Int} (h : f.heldTime = .ok time)
    (htimed : f.timed = []) : f.rows = [] := by
  have hhead := timed_of_heldTime h
  rw [htimed] at hhead
  have hnone : f.heldTime = .ok none := by rw [h, ← hhead]; rfl
  unfold heldTime at hnone
  cases hheld : f.held with
  | none => simp [rows, hheld]
  | some row =>
    simp only [hheld] at hnone
    cases hread : readTime f.path (timeCell row) with
    | error e => simp [hread, Except.map] at hnone
    | ok t => simp [hread, Except.map] at hnone

end Feed

namespace Merge

variable {codec : Codec} {m : Merge}

/-! ## §2. The account of the primary file. -/

/-- **A pass takes as many rows as it leaves fewer**, whatever it comes to. -/
theorem Draining.taken_add {strictness : Strictness} {w : Int} {f : Feed} {merged : Record}
    {d : Drained} (h : Draining codec strictness w f merged d) :
    d.feed.taken + d.feed.rows.length = f.taken + f.rows.length := by
  -- A row that is taken was the first of those left.
  have htake : ∀ {f next : Feed} {row : Row} {took : Option Row}, f.held = some row →
      f.advance = (.ok took, next) →
        next.taken + next.rows.length = f.taken + f.rows.length := by
    intro f next row took hheld hadvance
    rw [Feed.taken_of_advance_ok hheld hadvance, (Feed.rows_of_advance_ok hheld hadvance).1,
      List.length_cons]
    omega
  induction h with
  | exhausted | unreadable | waiting | late => rfl
  | malformed _ _ _ advance =>
    rw [Feed.taken_of_advance_error advance, (Feed.rows_of_advance_error advance).1]
  | skipped held _ _ _ advance _ ih => exact ih.trans (htake held advance)
  | refused held _ advance _ => exact htake held advance
  | united held _ advance _ _ ih => exact ih.trans (htake held advance)

theorem taken_add_sweep (codec : Codec) (strictness : Strictness) (w : Int) (ss : List Source)
    (merged : Record) :
    primaryTaken (sweep codec strictness w ss merged).sources +
        (primaryRows (sweep codec strictness w ss merged).sources).length =
      primaryTaken ss + (primaryRows ss).length := by
  cases ss with
  | nil => rfl
  | cons s rest =>
    obtain ⟨path, feed⟩ := s
    cases feed with
    | none => rfl
    | some f =>
      have hdrain := (drain_draining codec strictness w f merged).taken_add
      cases hresult : (drain codec strictness w f merged).result with
      | error e =>
        rw [sweep_of_error hresult]
        exact hdrain
      | ok waiting =>
        rw [sweep_of_ok hresult]
        exact hdrain

theorem taken_add_next (codec : Codec) (m : Merge) :
    primaryTaken (m.next codec).state.sources + (primaryRows (m.next codec).state.sources).length =
      primaryTaken m.sources + (primaryRows m.sources).length := by
  by_cases hw : ∃ w, m.phase = .connected (some w)
  · obtain ⟨w, hphase⟩ := hw
    rw [(sources_next codec hphase).1]
    exact taken_add_sweep codec m.strictness w m.sources []
  · rw [(next_idle codec (not_exists.1 hw)).2.1]

/-- **The account of the primary file along a run**, failed calls included. -/
theorem taken_add_after (codec : Codec) (m : Merge) (n : Nat) :
    primaryTaken (m.after codec n).sources + (primaryRows (m.after codec n).sources).length =
      primaryTaken m.sources + (primaryRows m.sources).length := by
  induction n with
  | zero => rfl
  | succ n ih => exact (taken_add_next codec (m.after codec n)).trans ih

/-- What connecting leaves of the primary file: no row of it was taken, and
it has rows only if there is a watermark. -/
theorem primary_connect (t : FileTree) (m : Merge) :
    primaryTaken (m.connect t).state.sources = 0 ∧
      ((m.connect t).state.watermark = none →
        (m.connect t).state.times = [] ∧ primaryRows (m.connect t).state.sources = []) := by
  -- After a failure every file is closed.
  have hclosed : primaryTaken m.disconnect.sources = 0 ∧
      primaryTimes m.disconnect.sources = [] ∧ primaryRows m.disconnect.sources = [] := by
    unfold disconnect
    cases m.sources with
    | nil => exact ⟨rfl, rfl, rfl⟩
    | cons s rest => exact ⟨rfl, rfl, rfl⟩
  rcases connect_cases t m with ⟨e, -, -, hs⟩ | ⟨e, -, -, -, hs⟩ | ⟨w, hok, hfirst, -, hs⟩
  · rw [hs]
    exact ⟨hclosed.1, fun _ => hclosed.2⟩
  · rw [hs]
    exact ⟨hclosed.1, fun _ => hclosed.2⟩
  · rw [hs]
    obtain ⟨-, hopened⟩ := sources_of_openAll hok
    unfold times
    generalize (openAll t m.paths).state = ss at hopened hfirst ⊢
    cases ss with
    | nil => exact ⟨rfl, fun _ => ⟨rfl, rfl⟩⟩
    | cons s rest =>
      obtain ⟨path, feed⟩ := s
      obtain ⟨f, bytes, names, rfl, -, hf⟩ := hopened _ List.mem_cons_self
      refine ⟨hf.taken, ?_⟩
      intro hnone
      obtain rfl : w = none := hnone
      have htimed := Feed.timed_of_heldTime hfirst
      rw [Option.map_eq_none_iff, List.head?_eq_none_iff] at htimed
      exact ⟨List.map_eq_nil_iff.2 htimed, Feed.rows_eq_nil_of_timed hfirst htimed⟩

/-! ## §3. The call that ends a stream. -/

/-- A step that ends the stream has passed all rows that are not ahead of its
watermark, and the primary file has rows left only if it has times left. -/
theorem primary_of_none {w : Int} (hphase : m.phase = .connected (some w))
    (h : (m.next codec).result = .ok none) :
    (m.next codec).state.times = m.times.dropWhile (fun x => decide (x ≤ w)) ∧
      ((m.next codec).state.times = [] ↔ primaryRows (m.next codec).state.sources = []) := by
  rcases next_cases codec hphase with ⟨e, -, hres, -⟩ | ⟨hok, -, -, hs⟩ | ⟨-, -, hres, -⟩
  · rw [hres] at h; cases h
  · have hpast : m.times.dropWhile (fun x => decide (x ≤ w)) =
        (m.next codec).state.times.dropWhile (fun x => decide (x ≤ w)) :=
      (next_passed hphase).times_past
    rw [hs] at hpast ⊢
    refine ⟨(hpast.trans (dropWhile_of_lt_head (waitingTime_sweep hok).2)).symm, ?_⟩
    show primaryTimes _ = [] ↔ primaryRows _ = []
    generalize m.sources = ss at hok
    rcases ss with _ | ⟨⟨path, _ | f⟩, rest⟩
    · exact iff_of_true rfl rfl
    · exact iff_of_true rfl rfl
    · cases hresult : (drain codec m.strictness w f []).result with
      | error e =>
        rw [sweep_of_error hresult] at hok
        cases hok
      | ok waiting =>
        rw [sweep_of_ok hresult]
        obtain ⟨hheld, -⟩ := (drain_draining codec m.strictness w f []).heldTime hresult
        constructor
        · intro htimes
          exact Feed.rows_eq_nil_of_timed hheld (List.map_eq_nil_iff.1 htimes)
        · intro hrows
          have hrows' : (drain codec m.strictness w f []).feed.rows = [] := hrows
          simp only [primaryTimes, Feed.timed, hrows', inTime, List.map_nil]
  · rw [hres] at h; cases h

/-- A run without a failed call that comes to nothing has an end: a call that
found nothing at its watermark, and after it there are no more steps. -/
theorem exists_end {v : Int} (hv : m.phase = .connected (some v)) : ∀ {n : Nat},
    (∀ j, j < n → ¬ Failed codec m j) → ((m.after codec n).next codec).result = .ok none →
      ∃ e w, e ≤ n ∧ (m.after codec e).phase = .connected (some w) ∧
        ((m.after codec e).next codec).result = .ok none ∧
        m.after codec (n + 1) = m.after codec (e + 1) ∧
        ∀ j, j ≤ n → ∀ x, (m.after codec j).phase = .connected (some x) → j ≤ e := by
  intro n
  induction n with
  | zero => exact fun _ hnone => ⟨0, v, Nat.le_refl _, hv, hnone, rfl, fun j hj _ _ => hj⟩
  | succ n ih =>
    intro hok hnone
    have hfirst : (m.after codec 0).phase = .connected (some v) := hv
    rcases phase_after hfirst (Nat.zero_le (n + 1)) with ⟨w, hw⟩ | hended
    · exact ⟨n + 1, w, Nat.le_refl _, hw, hnone, rfl, fun j hj _ _ => hj⟩
    · -- The stream has ended before the call, so the call before it came to nothing too.
      have hbefore : ((m.after codec n).next codec).result = .ok none := by
        rcases phase_after hfirst (Nat.zero_le n) with ⟨u, hu⟩ | hended'
        · cases hresult : ((m.after codec n).next codec).result with
          | error e => exact absurd ⟨e, hresult⟩ (hok n (Nat.lt_succ_self n))
          | ok handed =>
            cases handed with
            | none => rfl
            | some r =>
              have hphase : (m.after codec (n + 1)).phase = .connected _ :=
                (next_some hu hresult).2.2.2.2.1
              rw [hended] at hphase
              cases hphase
        · rw [next_of_ended codec hended']
      obtain ⟨e, w, he, hw, hend, hsame, hlast⟩ := ih (fun j hj => hok j (by omega)) hbefore
      refine ⟨e, w, by omega, hw, hend, ?_, ?_⟩
      · rw [← hsame]
        show ((m.after codec (n + 1)).next codec).state = _
        rw [next_of_ended codec hended]
      · intro j hj x hx
        by_cases hjn : j = n + 1
        · rw [hjn, hended] at hx
          cases hx
        · exact hlast j (by omega) x hx

/-- Without a failed call, a step before a watermark handed out its record. -/
theorem handed_of_phase {j k : Nat} {v w : Int} (hjk : j < k)
    (hok : ¬ Failed codec m j) (hv : (m.after codec j).phase = .connected (some v))
    (hw : (m.after codec k).phase = .connected (some w)) : Handed codec m k v := by
  cases hresult : ((m.after codec j).next codec).result with
  | error e => exact absurd ⟨e, hresult⟩ hok
  | ok handed =>
    cases handed with
    | none =>
      have hended : (m.after codec (j + 1)).phase = .ended := (next_none hv hresult).1
      obtain ⟨u, hu, -⟩ := before_watermark hjk hw
      rw [hended] at hu
      cases hu
    | some r => exact ⟨j, r, hjk, hv, hresult⟩

/-- Without a failed call, what is due at a watermark whose record was not
handed out is what was due at the start. -/
theorem due_eq_of_not_handed {k : Nat} {w : Int} (hok : ∀ j, j < k → ¬ Failed codec m j)
    (hw : (m.after codec k).phase = .connected (some w)) (hnot : ¬ Handed codec m k w) :
    (m.after codec k).due codec w = m.due codec w := by
  have hall : ∀ i, i ≤ k → (m.after codec i).due codec w = m.due codec w := by
    intro i
    induction i with
    | zero => exact fun _ => rfl
    | succ i ih =>
      intro hik
      obtain ⟨v, hv, hvw, -⟩ := before_watermark (Nat.le_of_succ_le hik) hw
      have hne : v ≠ w := fun heq =>
        hnot (heq ▸ handed_of_phase (Nat.lt_of_succ_le hik) (hok i (by omega)) hv hw)
      rw [← ih (by omega)]
      exact due_next_of_lt hv (by omega)
  exact hall k (Nat.le_refl _)

theorem strictMaxima_eq_nil_iff {times : List Int} : strictMaxima times = [] ↔ times = [] := by
  cases times with
  | nil => exact iff_of_true rfl rfl
  | cons t ts => simp [strictMaxima_cons]

/-- **The end of a run**: the watermark of the call that ended the stream, the
times before it, and the times that it leaves. -/
structure EndsAt (codec : Codec) (m : Merge) (n : Nat) (w : Int) (before left : List Int) :
    Prop where
  maxima : strictMaxima m.times = before ++ w :: left
  /-- The steps were at the times that are not left. -/
  steps : ∀ time, (∃ j, j ≤ n ∧ (m.after codec j).phase = .connected (some time)) ↔
    time ∈ before ∨ time = w
  /-- Something was due at each time before the end. -/
  due : ∀ time ∈ before, Record.unionAll (m.due codec time) ≠ []
  /-- The end was before its time only if nothing was due at it. -/
  early : left ≠ [] → Record.unionAll (m.due codec w) = []
  rows : left = [] ↔ primaryRows (m.after codec (n + 1)).sources = []

theorem exists_endsAt {v : Int} {n : Nat} (hv : m.phase = .connected (some v))
    (hfresh : m.phase = .connected m.times.head?) (hok : ∀ j, j < n → ¬ Failed codec m j)
    (hnone : ((m.after codec n).next codec).result = .ok none) :
    ∃ w before left, EndsAt codec m n w before left := by
  obtain ⟨e, w, he, hw, hend, hsame, hlast⟩ := exists_end hv hok hnone
  obtain ⟨before, hmaxima, hhanded, hgone⟩ := reached hfresh hw
  obtain ⟨hleft, hrows⟩ := primary_of_none hw hend
  have hok' : ∀ j, j < e → ¬ Failed codec m j := fun j hj => hok j (by omega)
  refine ⟨w, before, _, hmaxima, ?_, ?_, ?_, ?_⟩
  · intro time
    constructor
    · rintro ⟨j, hj, hphase⟩
      rcases Nat.lt_or_eq_of_le (hlast j hj time hphase) with hlt | rfl
      · exact ((hhanded time).1 (handed_of_phase hlt (hok' j hlt) hphase hw)).imp_right And.left
      · rw [hw] at hphase
        injection hphase with heq
        injection heq with heq
        exact .inr heq.symm
    · rintro (hbefore | rfl)
      · obtain ⟨j, r, hj, hphase, -⟩ := (hhanded time).2 (.inl hbefore)
        exact ⟨j, by omega, hphase⟩
      · exact ⟨e, he, hw⟩
  · intro time htime
    obtain ⟨j, r, hj, hhands⟩ := (hhanded time).2 (.inl htime)
    obtain ⟨hr, hne, -⟩ := next_some hhands.1 hhands.2
    rw [due_eq_of_hands hhands fun i hi hfailed => absurd hfailed (hok' i (by omega))] at hr
    exact hr ▸ hne
  · intro hne
    -- Once the watermark was handed out, no time comes after it.
    have hnot : ¬ Handed codec m e w := by
      intro h
      rw [hgone h] at hne
      exact hne rfl
    rw [← due_eq_of_not_handed hok' hw hnot]
    exact (next_none hw hend).2
  · rw [hsame, ← hleft, strictMaxima_eq_nil_iff]
    exact hrows

/-! ## §4. When nothing is left behind. -/

/-- A stream that came to nothing with a call left nothing of the primary
file behind.  A time behind a later one of its file has no step of its own. -/
structure EndsWhole (codec : Codec) (m : Merge) (n : Nat) : Prop where
  /-- As many rows were taken as the file had. -/
  rows : primaryTaken (m.after codec (n + 1)).sources = (primaryRows m.sources).length
  /-- The steps were at the times of the file. -/
  times : ∀ time, time ∈ strictMaxima m.times ↔
    ∃ j, j ≤ n ∧ (m.after codec j).phase = .connected (some time)

namespace EndsAt

variable {n : Nat} {w : Int} {before left : List Int}

/-- Nothing is left iff each time but the last has something due. -/
theorem left_eq_nil_iff (h : EndsAt codec m n w before left) :
    left = [] ↔
      ∀ time ∈ (strictMaxima m.times).dropLast, Record.unionAll (m.due codec time) ≠ [] := by
  rw [h.maxima]
  constructor
  · rintro rfl time htime
    rw [List.dropLast_concat] at htime
    exact h.due time htime
  · intro hdue
    refine Classical.byContradiction fun hne => hdue w ?_ (h.early hne)
    rw [List.dropLast_append_of_ne_nil (by simp), List.dropLast_cons_of_ne_nil hne]
    exact List.mem_append_right _ List.mem_cons_self

/-- The end leaves nothing behind iff no time is left. -/
theorem endsWhole_iff_left (h : EndsAt codec m n w before left)
    (htaken : primaryTaken m.sources = 0) : EndsWhole codec m n ↔ left = [] := by
  have haccount := taken_add_after codec m (n + 1)
  rw [htaken, Nat.zero_add] at haccount
  constructor
  · intro hwhole
    rw [hwhole.rows, Nat.add_eq_left] at haccount
    exact h.rows.2 (List.length_eq_zero_iff.1 haccount)
  · rintro rfl
    rw [h.rows.1 rfl, List.length_nil, Nat.add_zero] at haccount
    refine ⟨haccount, ?_⟩
    intro time
    rw [h.steps, h.maxima, List.mem_append, List.mem_singleton]

end EndsAt

/-- A merge without a watermark has nothing to leave behind. -/
theorem endsWhole_of_no_watermark {n : Nat} (hnone : m.watermark = none)
    (htimes : m.times = []) (htaken : primaryTaken m.sources = 0)
    (hrows : primaryRows m.sources = []) : EndsWhole codec m n := by
  have haccount := taken_add_after codec m (n + 1)
  rw [htaken, hrows, List.length_nil] at haccount
  refine ⟨by rw [hrows, List.length_nil]; omega, ?_⟩
  intro time
  rw [htimes]
  refine iff_of_false (by simp [strictMaxima, leaders]) ?_
  rintro ⟨j, -, hphase⟩
  obtain ⟨v, hv, -⟩ := before_watermark (Nat.zero_le j) hphase
  have hphase : m.phase = .connected (some v) := hv
  simp only [watermark, hphase, reduceCtorEq] at hnone

/-- **When the end of a stream is the end of the primary file.**  Of a run
from a connected merge in which no call fails, and which comes to nothing,
the end leaves no row and no time of the primary file behind iff what is due
at each of its times but the last has something in it. -/
theorem endsWhole_iff {t : FileTree} {codec : Codec} {m : Merge} {n : Nat}
    (hok : ∀ j, j < n → ¬ Failed codec (m.connect t).state j)
    (hnone : (((m.connect t).state.after codec n).next codec).result = .ok none) :
    EndsWhole codec (m.connect t).state n ↔
      ∀ time ∈ (strictMaxima (m.connect t).state.times).dropLast,
        Record.unionAll ((m.connect t).state.due codec time) ≠ [] := by
  obtain ⟨htaken, hempty⟩ := primary_connect t m
  by_cases hstart : ∃ v, (m.connect t).state.phase = .connected (some v)
  · obtain ⟨v, hv⟩ := hstart
    have hfresh : (m.connect t).state.phase = .connected (m.connect t).state.times.head? := by
      rw [hv, ← phase_connect t m _ hv]
    obtain ⟨w, before, left, hends⟩ := exists_endsAt hv hfresh hok hnone
    rw [hends.endsWhole_iff_left htaken]
    exact hends.left_eq_nil_iff
  · have hwatermark : (m.connect t).state.watermark = none := by
      rw [Option.eq_none_iff_forall_ne_some]
      intro v hv
      refine hstart ⟨v, ?_⟩
      unfold watermark at hv
      split at hv
      · next w hphase => rw [hphase, hv]
      · cases hv
    obtain ⟨htimes, hrows⟩ := hempty hwatermark
    refine iff_of_true (endsWhole_of_no_watermark hwatermark htimes htaken hrows) ?_
    rw [htimes]
    simp [strictMaxima, leaders]

/-- A codec that leaves out empty cells, so that a row may have nothing in it. -/
def sparse : Codec where
  name := "sparse"
  toGroups := fun _ => .ok []
  ofRow := fun _ row => .ok <| Dict.mapValues Value.text <|
    row.filter fun p => !Columns.isCommon p.1 && !p.2.isEmpty

/-- A merge of one file with some rows, connected. -/
def oneFile (rows : String) : Merge :=
  (((new .lenient).add "P.csv").connect ⟨[(["P.csv"], .file (Text.encode
    ("timestamp,sensor,target,socket,cpu,x\n" ++ rows)))]⟩).state

/-- Nothing in the last row: the stream ends at its time, and nothing is left. -/
theorem endsWhole_lastEmpty :
    (((oneFile "1,s,t,0,0,5\n2,s,t,0,0,\n").after sparse 0).next sparse).result.isOk = true ∧
      (((oneFile "1,s,t,0,0,5\n2,s,t,0,0,\n").after sparse 1).next sparse).result = .ok none ∧
      EndsWhole sparse (oneFile "1,s,t,0,0,5\n2,s,t,0,0,\n") 1 := by
  have hfirst : (((oneFile "1,s,t,0,0,5\n2,s,t,0,0,\n").after sparse 0).next sparse).result.isOk =
      true := by decide +kernel
  have hnone : (((oneFile "1,s,t,0,0,5\n2,s,t,0,0,\n").after sparse 1).next sparse).result =
      .ok none := eq_ok_of_toOption (by decide +kernel)
  refine ⟨hfirst, hnone, (endsWhole_iff ?_ hnone).2 (by decide +kernel)⟩
  rintro j hj ⟨e, he⟩
  obtain rfl : j = 0 := by omega
  have hok : (((oneFile "1,s,t,0,0,5\n2,s,t,0,0,\n").after sparse 0).next sparse).result =
    .error e := he
  rw [hok] at hfirst
  cases hfirst

/-- Nothing in the first row: the first call ends the stream, and the row at
the next time is never read. -/
theorem not_endsWhole_firstEmpty :
    (((oneFile "1,s,t,0,0,\n2,s,t,0,0,5\n").after sparse 0).next sparse).result = .ok none ∧
      ¬ EndsWhole sparse (oneFile "1,s,t,0,0,\n2,s,t,0,0,5\n") 0 := by
  refine ⟨eq_ok_of_toOption (by decide +kernel), ?_⟩
  intro h
  exact absurd h.rows (by decide +kernel)

end Merge

end ReportStore

/-
  ReportStore.Proofs.Merge.Step
  ─────────────────────────────
  **WHAT ONE STEP OF A MERGE DOES.**

  A step passes over the files in order, so its account is the sum of those
  of the files.  For the watermark `w` and every later time:

      due before at w = taken ++ due after at w
      due before at t = due after at t                 for t past w

  This holds of a step that fails, too: what it took is then gone, and what
  it did not reach is still there.  A step that succeeds takes all that is
  due, hands out its union, and moves on to the next time of the primary
  file.
-/
import ReportStore.Proofs.Merge.Rows

namespace ReportStore

/-! ## §1. What several files hold. -/

/-- The fragments that a registered file adds at a time. -/
def Source.due (codec : Codec) (time : Int) (s : Source) : List Record :=
  match s.feed with
  | none => []
  | some f => f.due codec time

/-- The fragments that files add at a time, in the order of the files. -/
def dueFrom (codec : Codec) (time : Int) (sources : List Source) : List Record :=
  sources.flatMap (Source.due codec time)

/-- What is due at a time are the fragments of rows of that time. -/
theorem exists_row_of_mem_dueFrom {codec : Codec} {time : Int} {ss : List Source} {r : Record}
    (h : r ∈ dueFrom codec time ss) :
    ∃ s ∈ ss, ∃ f ∈ s.feed, ∃ row ∈ f.rows, row.time? = some time ∧
      codec.ofRow f.fileName row = .ok r := by
  obtain ⟨s, hs, hr⟩ := List.mem_flatMap.1 h
  unfold Source.due at hr
  cases hfeed : s.feed with
  | none => simp [hfeed] at hr
  | some f =>
    rw [hfeed] at hr
    obtain ⟨row, hrow, hdecoded⟩ := mem_fragments hr
    obtain ⟨hmem, htime⟩ := mem_inTime (mem_of_mem_dueAt hrow)
    exact ⟨s, hs, f, hfeed, row, hmem, htime, hdecoded⟩

/-- No row of the files that are open is due at a time. -/
def Spent (time : Int) (sources : List Source) : Prop :=
  ∀ s ∈ sources, ∀ f ∈ s.feed, dueAt time f.timed = []

theorem Spent.dueFrom_eq_nil {codec : Codec} {time : Int} {ss : List Source} (h : Spent time ss) :
    dueFrom codec time ss = [] := by
  refine List.flatMap_eq_nil_iff.2 ?_
  intro s hs
  unfold Source.due
  cases hfeed : s.feed with
  | none => rfl
  | some f =>
    show fragments codec f.fileName (dueAt time f.timed) = []
    rw [h s hs f hfeed]
    rfl

/-- The times of the rows of the primary file that are still to come. -/
def primaryTimes : List Source → List Int
  | ⟨_, some f⟩ :: _ => f.timed.map (·.1)
  | _ => []

namespace Merge

/-- The fragments that the files add at a time. -/
def due (codec : Codec) (time : Int) (m : Merge) : List Record := dueFrom codec time m.sources

/-- The times of the rows of the primary file that are still to come. -/
def times (m : Merge) : List Int := primaryTimes m.sources

end Merge

/-- Each open file passed some of its rows, none of them ahead of a time. -/
inductive SourcesPassed (codec : Codec) (w : Int) : List Source → List Source → Prop where
  | nil : SourcesPassed codec w [] []
  | closed {path : String} {ss ss' : List Source} (rest : SourcesPassed codec w ss ss') :
      SourcesPassed codec w (⟨path, none⟩ :: ss) (⟨path, none⟩ :: ss')
  | opened {path : String} {f f' : Feed} {taken : List Record} {ss ss' : List Source}
      (first : f.Passed codec w f' taken) (rest : SourcesPassed codec w ss ss') :
      SourcesPassed codec w (⟨path, some f⟩ :: ss) (⟨path, some f'⟩ :: ss')

namespace SourcesPassed

variable {codec : Codec} {w : Int} {ss ss' ss'' : List Source}

theorem refl (codec : Codec) (w : Int) : ∀ ss : List Source, SourcesPassed codec w ss ss
  | [] => .nil
  | ⟨_, none⟩ :: rest => .closed (refl codec w rest)
  | ⟨_, some f⟩ :: rest => .opened (.refl codec w f) (refl codec w rest)

/-- Passing rows leaves the files registered. -/
theorem paths (h : SourcesPassed codec w ss ss') : ss'.map (·.path) = ss.map (·.path) := by
  induction h with
  | nil => rfl
  | closed _ ih => rw [List.map_cons, List.map_cons, ih]
  | opened _ _ ih => rw [List.map_cons, List.map_cons, ih]

/-- **What passing rows keeps of a feed** it keeps of every file. -/
theorem keeps {P : String → Feed → Prop}
    (hP : ∀ {path : String} {f f' : Feed} {taken : List Record}, f.Passed codec w f' taken →
      P path f → P path f')
    (h : SourcesPassed codec w ss ss') (hss : ∀ s ∈ ss, ∀ f ∈ s.feed, P s.path f) :
    ∀ s ∈ ss', ∀ f ∈ s.feed, P s.path f := by
  induction h with
  | nil => exact hss
  | closed _ ih =>
    obtain ⟨-, hrest⟩ := List.forall_mem_cons.1 hss
    exact List.forall_mem_cons.2 ⟨by simp, ih hrest⟩
  | opened first _ ih =>
    obtain ⟨hfirst, hrest⟩ := List.forall_mem_cons.1 hss
    refine List.forall_mem_cons.2 ⟨?_, ih hrest⟩
    intro g hg
    injection hg with hg
    exact hg ▸ hP first (hfirst _ rfl)

/-- Ahead of the watermark everything is still there. -/
theorem due_of_lt (h : SourcesPassed codec w ss ss') {time : Int} (ht : w < time) :
    dueFrom codec time ss' = dueFrom codec time ss := by
  induction h with
  | nil => rfl
  | closed _ ih =>
    unfold dueFrom at ih ⊢
    simp only [List.flatMap_cons, ih, Source.due]
  | opened first _ ih =>
    unfold dueFrom at ih ⊢
    simp only [List.flatMap_cons, ih, Source.due, first.due_of_lt ht]

/-- The times of the primary file that are gone are not past the watermark. -/
theorem primaryTimes_eq (h : SourcesPassed codec w ss ss') :
    ∃ before, primaryTimes ss = before ++ primaryTimes ss' ∧ ∀ t ∈ before, t ≤ w := by
  cases h with
  | nil => exact ⟨[], rfl, by simp⟩
  | closed => exact ⟨[], rfl, by simp⟩
  | opened first _ =>
    obtain ⟨before, hrows, hw, -⟩ := first.timed_eq
    refine ⟨before.map (·.1), ?_, ?_⟩
    · simp only [primaryTimes, hrows, List.map_append]
    · intro t ht
      obtain ⟨p, hp, rfl⟩ := List.mem_map.1 ht
      exact hw p hp

/-- Past the watermark the primary file has the times that it had. -/
theorem times_past (h : SourcesPassed codec w ss ss') :
    (primaryTimes ss).dropWhile (fun x => decide (x ≤ w)) =
      (primaryTimes ss').dropWhile (fun x => decide (x ≤ w)) := by
  obtain ⟨gone, hsplit, hgone⟩ := h.primaryTimes_eq
  have hall : ∀ x ∈ gone, decide (x ≤ w) = true := fun x hx => decide_eq_true (hgone x hx)
  rw [hsplit, List.dropWhile_append_of_pos hall]

/-- Passing rows again, at a watermark that is not before the first. -/
theorem trans {v : Int} (h₁ : SourcesPassed codec v ss ss') (hvw : v ≤ w)
    (h₂ : SourcesPassed codec w ss' ss'') : SourcesPassed codec w ss ss'' := by
  induction h₁ generalizing ss'' with
  | nil => exact h₂
  | closed _ ih =>
    cases h₂ with
    | closed rest => exact .closed (ih rest)
  | opened first _ ih =>
    cases h₂ with
    | opened first' rest =>
      obtain ⟨taken, hfirst⟩ := first.mono hvw
      exact .opened (hfirst.trans first') (ih rest)

end SourcesPassed

namespace Merge

/-! ## §2. The account of a sweep. -/

variable {codec : Codec} {strictness : Strictness} {w : Int}

/-- A failed pass ends the sweep, and the files after it keep what they have. -/
theorem sweep_of_error {path : String} {f : Feed} {merged : Record} {e : Fault}
    (h : (drain codec strictness w f merged).result = .error e) (rest : List Source) :
    sweep codec strictness w (⟨path, some f⟩ :: rest) merged =
      ⟨.error e, ⟨path, some (drain codec strictness w f merged).feed⟩ :: rest,
        (drain codec strictness w f merged).merged,
        (drain codec strictness w f merged).signals⟩ := by
  simp only [sweep, h]

/-- After a pass that succeeds the sweep goes on with its union. -/
theorem sweep_of_ok {path : String} {f : Feed} {merged : Record} {waiting : Option Int}
    (h : (drain codec strictness w f merged).result = .ok waiting) (rest : List Source) :
    sweep codec strictness w (⟨path, some f⟩ :: rest) merged =
      let later := sweep codec strictness w rest (drain codec strictness w f merged).merged
      { later with
        sources := ⟨path, some (drain codec strictness w f merged).feed⟩ :: later.sources
        signals := (drain codec strictness w f merged).signals ++ later.signals } := by
  simp only [sweep, h]

/-- A sweep over more files goes on with the union of the first ones. -/
theorem sweep_append_of_ok {bs : List Source} : ∀ {as : List Source} {merged : Record},
    (sweep codec strictness w as merged).result = .ok () →
      sweep codec strictness w (as ++ bs) merged =
        let first := sweep codec strictness w as merged
        let later := sweep codec strictness w bs first.merged
        { later with
          sources := first.sources ++ later.sources
          signals := first.signals ++ later.signals } := by
  intro as
  induction as with
  | nil => exact fun _ => rfl
  | cons s rest ih =>
    intro merged hok
    obtain ⟨path, feed⟩ := s
    cases feed with
    | none =>
      rw [List.cons_append, sweep, ih hok]
      rfl
    | some f =>
      cases hresult : (drain codec strictness w f merged).result with
      | error e =>
        rw [sweep_of_error hresult] at hok
        cases hok
      | ok waiting =>
        rw [sweep_of_ok hresult] at hok
        rw [List.cons_append, sweep_of_ok hresult, sweep_of_ok hresult, ih hok]
        simp only [List.cons_append, List.append_assoc]

/-- A sweep that fails does not come to the files behind. -/
theorem sweep_append_of_error {bs : List Source} {e : Fault} :
    ∀ {as : List Source} {merged : Record},
      (sweep codec strictness w as merged).result = .error e →
        sweep codec strictness w (as ++ bs) merged =
          { sweep codec strictness w as merged with
            sources := (sweep codec strictness w as merged).sources ++ bs } := by
  intro as
  induction as with
  | nil => exact fun h => nomatch h
  | cons s rest ih =>
    intro merged herror
    obtain ⟨path, feed⟩ := s
    cases feed with
    | none =>
      rw [List.cons_append, sweep, ih herror]
      rfl
    | some f =>
      cases hresult : (drain codec strictness w f merged).result with
      | error e' =>
        rw [List.cons_append, sweep_of_error hresult, sweep_of_error hresult]
        rfl
      | ok waiting =>
        rw [sweep_of_ok hresult] at herror
        rw [List.cons_append, sweep_of_ok hresult, sweep_of_ok hresult, ih herror]
        rfl

/-- **The account of a sweep over the files**, whatever it comes to. -/
theorem sweep_account (codec : Codec) (strictness : Strictness) (w : Int) :
    ∀ (ss : List Source) (merged : Record), ∃ taken,
      (sweep codec strictness w ss merged).merged = taken.foldl Record.union merged ∧
      dueFrom codec w ss =
        taken ++ dueFrom codec w (sweep codec strictness w ss merged).sources := by
  intro ss
  induction ss with
  | nil => exact fun merged => ⟨[], rfl, rfl⟩
  | cons s rest ih =>
    intro merged
    obtain ⟨path, feed⟩ := s
    cases feed with
    | none => exact ih merged
    | some f =>
      have hdrain := drain_draining codec strictness w f merged
      obtain ⟨first, hpass, hmerged⟩ := hdrain.passed
      cases hresult : (drain codec strictness w f merged).result with
      | error e =>
        rw [sweep_of_error hresult]
        -- The files after this one keep all that was due in them.
        refine ⟨first, hmerged, ?_⟩
        simp only [dueFrom, List.flatMap_cons, Source.due, hpass.due_eq, List.append_assoc]
      | ok waiting =>
        rw [sweep_of_ok hresult]
        obtain ⟨later, hlater, hdue⟩ := ih (drain codec strictness w f merged).merged
        -- The file has nothing left, so what it had comes before the rest.
        have hnil := hdrain.due_eq_nil hresult
        have hfirst : f.due codec w = first := by rw [hpass.due_eq, hnil, List.append_nil]
        refine ⟨first ++ later, ?_, ?_⟩
        · rw [List.foldl_append, ← hmerged]
          exact hlater
        · unfold dueFrom at hdue ⊢
          simp only [List.flatMap_cons, Source.due, hfirst, hnil, hdue, List.nil_append,
            List.append_assoc]

/-- A sweep passes rows of each file, none of them ahead of the watermark. -/
theorem sweep_passed (codec : Codec) (strictness : Strictness) (w : Int) :
    ∀ (ss : List Source) (merged : Record),
      SourcesPassed codec w ss (sweep codec strictness w ss merged).sources := by
  intro ss
  induction ss with
  | nil => exact fun _ => .nil
  | cons s rest ih =>
    intro merged
    obtain ⟨path, feed⟩ := s
    cases feed with
    | none => exact .closed (ih merged)
    | some f =>
      obtain ⟨first, hpass, -⟩ := (drain_draining codec strictness w f merged).passed
      cases hresult : (drain codec strictness w f merged).result with
      | error e =>
        rw [sweep_of_error hresult]
        exact .opened hpass (.refl codec w rest)
      | ok waiting =>
        rw [sweep_of_ok hresult]
        exact .opened hpass (ih _)

/-- **A sweep that succeeds leaves no row that is due**, whatever codec asks
next. -/
theorem spent_sweep_ok : ∀ {ss : List Source} {merged : Record},
    (sweep codec strictness w ss merged).result = .ok () →
      Spent w (sweep codec strictness w ss merged).sources := by
  intro ss
  induction ss with
  | nil => exact fun _ => List.forall_mem_nil _
  | cons s rest ih =>
    intro merged hok
    obtain ⟨path, feed⟩ := s
    cases feed with
    | none =>
      have hrest := ih hok
      exact List.forall_mem_cons.2 ⟨by simp, hrest⟩
    | some f =>
      cases hresult : (drain codec strictness w f merged).result with
      | error e =>
        rw [sweep_of_error hresult] at hok
        cases hok
      | ok waiting =>
        rw [sweep_of_ok hresult] at hok ⊢
        have hfirst := (drain_draining codec strictness w f merged).dueAt_eq_nil hresult
        refine List.forall_mem_cons.2 ⟨?_, ih hok⟩
        intro g hg
        injection hg with hg
        exact hg ▸ hfirst

theorem due_sweep_ok {ss : List Source} {merged : Record}
    (hok : (sweep codec strictness w ss merged).result = .ok ()) :
    dueFrom codec w (sweep codec strictness w ss merged).sources = [] :=
  (spent_sweep_ok hok).dueFrom_eq_nil

/-- A sweep that succeeds leaves the primary file at its first row ahead of
the watermark. -/
theorem waitingTime_sweep {ss : List Source} {merged : Record}
    (hok : (sweep codec strictness w ss merged).result = .ok ()) :
    waitingTime (sweep codec strictness w ss merged).sources =
      (primaryTimes (sweep codec strictness w ss merged).sources).head? ∧
    ∀ t ∈ (primaryTimes (sweep codec strictness w ss merged).sources).head?, w < t := by
  cases ss with
  | nil => exact ⟨rfl, by simp [sweep, primaryTimes]⟩
  | cons s rest =>
    obtain ⟨path, feed⟩ := s
    cases feed with
    | none => exact ⟨rfl, by simp [sweep, primaryTimes]⟩
    | some f =>
      cases hresult : (drain codec strictness w f merged).result with
      | error e =>
        rw [sweep_of_error hresult] at hok
        cases hok
      | ok waiting =>
        rw [sweep_of_ok hresult]
        obtain ⟨hheld, hahead⟩ := (drain_draining codec strictness w f merged).heldTime hresult
        have hhead := Feed.timed_of_heldTime hheld
        simp only [waitingTime, hheld, primaryTimes, List.head?_map, hhead]
        exact ⟨trivial, hahead⟩

/-! ## §3. The account of a step. -/

/-- What a step at a watermark comes to: a failure, the end of the stream,
or a record. -/
theorem next_cases {m : Merge} (codec : Codec) (hphase : m.phase = .connected (some w)) :
    let swept := sweep codec m.strictness w m.sources []
    (∃ e, swept.result = .error e ∧ (m.next codec).result = .error e ∧
      (m.next codec).state = { m with sources := swept.sources }) ∨
    (swept.result = .ok () ∧ swept.merged = [] ∧ (m.next codec).result = .ok none ∧
      (m.next codec).state = { m with sources := swept.sources, phase := .ended }) ∨
    (swept.result = .ok () ∧ swept.merged ≠ [] ∧
      (m.next codec).result = .ok (some swept.merged) ∧
      (m.next codec).state =
        { m with
          sources := swept.sources
          phase := .connected (some ((waitingTime swept.sources).getD w)) }) := by
  intro swept
  have hswept : sweep codec m.strictness w m.sources [] = swept := rfl
  cases hresult : swept.result with
  | error e =>
    have hresult' : (m.next codec).result = .error e := by
      simp only [next, hphase, hswept, hresult]
    have hstate : (m.next codec).state = { m with sources := swept.sources } := by
      simp only [next, hphase, hswept, hresult]
    exact .inl ⟨e, rfl, hresult', hstate⟩
  | ok u =>
    by_cases hmerged : swept.merged = []
    · have hnext : m.next codec = finish { m with sources := swept.sources } swept.signals := by
        simp only [next, hphase, hswept, hresult, hmerged, List.isEmpty_nil, if_true]
      rw [hnext]
      exact .inr (.inl ⟨rfl, hmerged, rfl, rfl⟩)
    · have hempty : swept.merged.isEmpty = false := by simpa using hmerged
      have hresult' : (m.next codec).result = .ok (some swept.merged) := by
        simp only [next, hphase, hswept, hresult, hempty, Bool.false_eq_true, if_false]
      refine .inr (.inr ⟨rfl, hmerged, hresult', ?_⟩)
      -- The watermark moves on only if a row of the primary file waits.
      cases hwait : waitingTime swept.sources with
      | none =>
        simp only [next, hphase, hswept, hresult, hempty, hwait, Bool.false_eq_true, if_false]
        rfl
      | some t =>
        simp only [next, hphase, hswept, hresult, hempty, hwait, Bool.false_eq_true, if_false]
        rfl

/-- A step fails if its sweep does. -/
theorem next_of_sweep_error {m : Merge} {e : Fault} (hphase : m.phase = .connected (some w))
    (herror : (sweep codec m.strictness w m.sources []).result = .error e) :
    (m.next codec).result = .error e := by
  rcases next_cases codec hphase with ⟨e', h, hres, -⟩ | ⟨h, -⟩ | ⟨h, -⟩
  · rw [herror] at h
    injection h with h
    rw [hres, h]
  · rw [herror] at h; cases h
  · rw [herror] at h; cases h

/-- If its sweep succeeds, a step hands out the union unless nothing is in it. -/
theorem next_of_sweep_ok {m : Merge} (hphase : m.phase = .connected (some w))
    (hok : (sweep codec m.strictness w m.sources []).result = .ok ()) :
    let swept := sweep codec m.strictness w m.sources []
    (m.next codec).result = .ok (if swept.merged = [] then none else some swept.merged) ∧
    (m.next codec).state =
      { m with
        sources := swept.sources
        phase := if swept.merged = [] then .ended
          else .connected (some ((waitingTime swept.sources).getD w)) } := by
  intro swept
  rcases next_cases codec hphase with ⟨e, h, -⟩ | ⟨-, hnil, hres, hstate⟩ | ⟨-, hne, hres, hstate⟩
  · rw [hok] at h; cases h
  · rw [if_pos hnil, if_pos hnil]
    exact ⟨hres, hstate⟩
  · rw [if_neg hne, if_neg hne]
    exact ⟨hres, hstate⟩

/-- **A step that fails**: what it took is gone, the rest is still due, and
the watermark stays. -/
theorem next_error {m : Merge} {e : Fault} (hphase : m.phase = .connected (some w))
    (h : (m.next codec).result = .error e) :
    (m.next codec).state.phase = m.phase ∧
    SourcesPassed codec w m.sources (m.next codec).state.sources ∧
    ∃ taken, m.due codec w = taken ++ (m.next codec).state.due codec w := by
  rcases next_cases codec hphase with ⟨e', -, -, hstate⟩ | ⟨-, -, hres, -⟩ | ⟨-, -, hres, -⟩
  · rw [hstate]
    obtain ⟨taken, -, hdue⟩ := sweep_account codec m.strictness w m.sources []
    exact ⟨rfl, sweep_passed codec m.strictness w m.sources [], taken, hdue⟩
  · rw [hres] at h; cases h
  · rw [hres] at h; cases h

/-- A sweep that succeeds unites all that is due with what it starts from. -/
theorem merged_sweep {ss : List Source} {merged : Record}
    (hok : (sweep codec strictness w ss merged).result = .ok ()) :
    (sweep codec strictness w ss merged).merged =
      (dueFrom codec w ss).foldl Record.union merged := by
  obtain ⟨taken, hmerged, hdue⟩ := sweep_account codec strictness w ss merged
  rw [due_sweep_ok hok, List.append_nil] at hdue
  rw [hmerged, hdue]

theorem merged_sweep_ok {ss : List Source}
    (hok : (sweep codec strictness w ss []).result = .ok ()) :
    (sweep codec strictness w ss []).merged = Record.unionAll (dueFrom codec w ss) :=
  merged_sweep hok

/-- **A step that ends the stream** found nothing at its watermark. -/
theorem next_none {m : Merge} (hphase : m.phase = .connected (some w))
    (h : (m.next codec).result = .ok none) :
    (m.next codec).state.phase = .ended ∧ Record.unionAll (m.due codec w) = [] := by
  rcases next_cases codec hphase with ⟨e', -, hres, -⟩ | ⟨hok, hnil, -, hstate⟩ | ⟨-, -, hres, -⟩
  · rw [hres] at h; cases h
  · rw [hstate]
    exact ⟨rfl, (merged_sweep_ok hok).symm.trans hnil⟩
  · rw [hres] at h; cases h

/-- **A step that hands out a record**: the record is the union of all that
is due, nothing due is left, and the watermark moves to the next time of the
primary file if there is one. -/
theorem next_some {m : Merge} {r : Record} (hphase : m.phase = .connected (some w))
    (h : (m.next codec).result = .ok (some r)) :
    r = Record.unionAll (m.due codec w) ∧ r ≠ [] ∧
    SourcesPassed codec w m.sources (m.next codec).state.sources ∧
    (m.next codec).state.due codec w = [] ∧
    (m.next codec).state.phase =
      .connected (some ((m.next codec).state.times.head?.getD w)) ∧
    ∀ t ∈ (m.next codec).state.times.head?, w < t := by
  rcases next_cases codec hphase with ⟨e', -, hres, -⟩ | ⟨-, -, hres, -⟩ | ⟨hok, hne, hres, hstate⟩
  · rw [hres] at h; cases h
  · rw [hres] at h; cases h
  · rw [hres] at h
    injection h with h
    injection h with h
    subst h
    rw [hstate]
    obtain ⟨hwait, hahead⟩ := waitingTime_sweep hok
    refine ⟨merged_sweep_ok hok, hne, sweep_passed codec m.strictness w m.sources [],
      due_sweep_ok hok, ?_, hahead⟩
    show Phase.connected _ = _
    rw [hwait]
    rfl

/-- A step that hands out a record leaves no row that is due. -/
theorem spent_next {m : Merge} {r : Record} (hphase : m.phase = .connected (some w))
    (h : (m.next codec).result = .ok (some r)) : Spent w (m.next codec).state.sources := by
  rcases next_cases codec hphase with ⟨e', -, hres, -⟩ | ⟨-, -, hres, -⟩ | ⟨hok, -, -, hstate⟩
  · rw [hres] at h; cases h
  · rw [hres] at h; cases h
  · rw [hstate]
    exact spent_sweep_ok hok

/-- Whatever a step at a watermark comes to, the files are left as its sweep
leaves them. -/
theorem sources_next {m : Merge} (codec : Codec) (hphase : m.phase = .connected (some w)) :
    (m.next codec).state.sources = (sweep codec m.strictness w m.sources []).sources ∧
      (m.next codec).state.strictness = m.strictness := by
  rcases next_cases codec hphase with ⟨e, -, -, hs⟩ | ⟨-, -, -, hs⟩ | ⟨-, -, -, hs⟩
  · rw [hs]
    exact ⟨rfl, rfl⟩
  · rw [hs]
    exact ⟨rfl, rfl⟩
  · rw [hs]
    exact ⟨rfl, rfl⟩

/-- **A step without a watermark** looks at no file, and comes to no
watermark. -/
theorem next_idle {m : Merge} (codec : Codec) (h : ∀ w, m.phase ≠ .connected (some w)) :
    (m.next codec).result = .ok none ∧ (m.next codec).state.sources = m.sources ∧
      (m.next codec).state.strictness = m.strictness ∧
      ∀ w, (m.next codec).state.phase ≠ .connected (some w) := by
  cases hphase : m.phase with
  | unconnected | ended =>
    have hnext : m.next codec = ⟨.ok none, m, []⟩ := by simp only [next, hphase]
    rw [hnext]
    exact ⟨rfl, rfl, rfl, h⟩
  | connected watermark =>
    cases watermark with
    | none =>
      have hnext : m.next codec = m.finish [] := by simp only [next, hphase]
      rw [hnext]
      exact ⟨rfl, rfl, rfl, nofun⟩
    | some w => exact absurd hphase (h w)

/-- Only a primary file without a row ends a stream without a sweep. -/
theorem phase_next_idle {m : Merge} (codec : Codec) (h : ∀ w, m.phase ≠ .connected (some w)) :
    (m.next codec).state.phase = if m.phase = .connected none then .ended else m.phase := by
  cases hphase : m.phase with
  | unconnected | ended =>
    simp only [next, hphase]
    rfl
  | connected watermark =>
    cases watermark with
    | none =>
      simp only [next, hphase]
      rfl
    | some w => exact absurd hphase (h w)

theorem strictness_next (codec : Codec) (m : Merge) :
    (m.next codec).state.strictness = m.strictness := by
  by_cases hw : ∃ w, m.phase = .connected (some w)
  · obtain ⟨w, hphase⟩ := hw
    exact (sources_next codec hphase).2
  · exact (next_idle codec (not_exists.1 hw)).2.2.1

/-- A step leaves the files registered. -/
theorem paths_next (codec : Codec) (m : Merge) : (m.next codec).state.paths = m.paths := by
  unfold paths
  by_cases hw : ∃ w, m.phase = .connected (some w)
  · obtain ⟨w, hphase⟩ := hw
    rw [(sources_next codec hphase).1]
    exact (sweep_passed codec m.strictness w m.sources []).paths
  · rw [(next_idle codec (not_exists.1 hw)).2.1]

/-! ## §4. Runs of steps. -/

/-- What some calls in a row leave, failed ones included. -/
def after (codec : Codec) : Nat → Merge → Merge
  | 0, m => m
  | n + 1, m => ((m.after codec n).next codec).state

/-- The first call of a run may be made apart. -/
theorem after_succ (codec : Codec) (n : Nat) (m : Merge) :
    m.after codec (n + 1) = (m.next codec).state.after codec n := by
  induction n with
  | zero => rfl
  | succ n ih =>
    show ((m.after codec (n + 1)).next codec).state = _
    rw [ih]
    rfl

/-- **An ended stream stays ended**, and hands out nothing. -/
theorem next_of_ended (codec : Codec) {m : Merge} (h : m.phase = .ended) :
    m.next codec = ⟨.ok none, m, []⟩ := by
  simp only [next, h]

/-- A merge that a call leaves as it is stays so. -/
theorem after_of_kept {m : Merge} (h : (m.next codec).state = m) (n : Nat) :
    m.after codec n = m := by
  induction n with
  | zero => rfl
  | succ n ih =>
    show ((m.after codec n).next codec).state = m
    rw [ih, h]

theorem after_of_ended (codec : Codec) {m : Merge} (h : m.phase = .ended) (n : Nat) :
    m.after codec n = m :=
  after_of_kept (by rw [next_of_ended codec h]) n

end Merge

end ReportStore

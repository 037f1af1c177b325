/-
  ReportStore.Proofs.Merge.Stream
  ───────────────────────────────
  **THE STREAM OF WELL-FORMED FILES, SORTED OR NOT.**

  Of files whose rows are all rows in time that the codec takes, a lenient
  merge hands out one record for each strict running maximum of the primary
  file's times, in the order of that file, and nothing after them.  The
  record of a time is the union of all that is due at it:

      result of call n = the n-th of (strictMaxima times).map (union of due)

  where a call past the end finds no element.  A union with nothing in it
  ends the stream before its time, which cannot be where the codec makes
  something of every row.  The induction is on the calls and follows the
  primary file: the invariant `Ready` says that the watermark is the first
  of its times that is left.
-/
import Mathlib.Data.List.TakeWhile
import ReportStore.Proofs.Merge.Step

namespace ReportStore

/-! ## §1. Files without a fault. -/

/-- Whether a codec makes something of a row. -/
def Codec.Decodes (codec : Codec) (fileName : String) (row : Row) : Prop :=
  ∃ r, codec.ofRow fileName row = .ok r ∧ r ≠ []

/-- A feed that no lenient pass fails on: all records are rows, all rows are in
time, and the codec takes them, even if it makes nothing of them. -/
structure Feed.Smooth (codec : Codec) (f : Feed) : Prop where
  rest : ∀ x ∈ f.rest, ∃ row, x = .ok row
  times : ∀ row ∈ f.rows, ∃ t, row.time? = some t
  takes : ∀ row ∈ f.rows, ∃ r, codec.ofRow f.fileName row = .ok r

/-- An open file that no lenient pass fails on; a closed one is none. -/
def Source.Smooth (codec : Codec) (s : Source) : Prop := ∀ f, s.feed = some f → f.Smooth codec

/-- A feed that no pass fails on: all records are rows, all rows are in time,
and the codec takes them. -/
structure Feed.Sound (codec : Codec) (f : Feed) : Prop where
  rest : ∀ x ∈ f.rest, ∃ row, x = .ok row
  times : ∀ row ∈ f.rows, ∃ t, row.time? = some t
  decodes : ∀ row ∈ f.rows, codec.Decodes f.fileName row

/-- An open file that no pass fails on; a closed one is none. -/
def Source.Sound (codec : Codec) (s : Source) : Prop := ∀ f, s.feed = some f → f.Sound codec

theorem Source.Sound.smooth {codec : Codec} {s : Source} (h : s.Sound codec) :
    s.Smooth codec := by
  intro f hf
  obtain ⟨hrest, htimes, hdecodes⟩ := h f hf
  refine ⟨hrest, htimes, ?_⟩
  intro row hrow
  obtain ⟨r, hr, -⟩ := hdecodes row hrow
  exact ⟨r, hr⟩

theorem Feed.Smooth.of_advance {codec : Codec} {f next : Feed} {row : Row} {took : Option Row}
    (h : f.Smooth codec) (held : f.held = some row) (advance : f.advance = (.ok took, next)) :
    next.Smooth codec := by
  obtain ⟨hrows, -, hname, -⟩ := Feed.rows_of_advance_ok held advance
  have hsub : ∀ r ∈ next.rows, r ∈ f.rows := by
    intro r hr
    rw [hrows]
    exact List.mem_cons_of_mem _ hr
  refine ⟨?_, fun r hr => h.times r (hsub r hr), fun r hr => hname ▸ h.takes r (hsub r hr)⟩
  intro x hx
  unfold Feed.advance at advance
  cases hrest : f.rest with
  | nil =>
    simp only [hrest, Prod.mk.injEq] at advance
    obtain ⟨-, rfl⟩ := advance
    simp at hx
  | cons y rest =>
    cases y with
    | error e => simp [hrest] at advance
    | ok row' =>
      simp only [hrest, Prod.mk.injEq] at advance
      obtain ⟨-, rfl⟩ := advance
      refine h.rest x ?_
      rw [hrest]
      exact List.mem_cons_of_mem _ hx

theorem Feed.Smooth.advance_ne_error {codec : Codec} {f next : Feed} {e : Fault}
    (h : f.Smooth codec) : f.advance ≠ (.error e, next) := by
  intro advance
  unfold Feed.advance at advance
  cases hrest : f.rest with
  | nil => simp [hrest] at advance
  | cons y rest =>
    obtain ⟨row, rfl⟩ := h.rest y (hrest ▸ List.mem_cons_self)
    simp [hrest] at advance

namespace Merge

/-! ## §2. Steps that cannot fail. -/

variable {codec : Codec} {w : Int}

/-- **A lenient pass over a smooth file succeeds** and leaves it smooth. -/
theorem Draining.ok_of_smooth {strictness : Strictness} {f : Feed} {merged : Record}
    {d : Drained} (h : Draining codec strictness w f merged d) (hlenient : strictness = .lenient)
    (hf : f.Smooth codec) : (∃ waiting, d.result = .ok waiting) ∧ d.feed.Smooth codec := by
  induction h with
  | exhausted | waiting => exact ⟨⟨_, rfl⟩, hf⟩
  | @unreadable f _ row held time =>
    obtain ⟨t, ht⟩ := hf.times row (by simp [Feed.rows, held])
    rw [time] at ht
    cases ht
  | late _ _ _ strict => rw [hlenient] at strict; cases strict
  | malformed _ _ _ advance => exact absurd advance hf.advance_ne_error
  | skipped held _ _ _ advance _ ih => exact ih (hf.of_advance held advance)
  | @refused f _ _ row _ _ held _ _ decoded =>
    obtain ⟨r, hr⟩ := hf.takes row (by simp [Feed.rows, held])
    rw [decoded] at hr
    cases hr
  | united held _ advance _ _ ih => exact ih (hf.of_advance held advance)

theorem sweep_ok_of_smooth : ∀ {ss : List Source} (merged : Record),
    (∀ s ∈ ss, s.Smooth codec) →
      (sweep codec .lenient w ss merged).result = .ok () ∧
      ∀ s ∈ (sweep codec .lenient w ss merged).sources, s.Smooth codec := by
  intro ss
  induction ss with
  | nil => exact fun _ _ => ⟨rfl, by simp [sweep]⟩
  | cons s rest ih =>
    intro merged hsmooth
    have hrest := fun s hs => hsmooth s (List.mem_cons_of_mem _ hs)
    have hfirst := hsmooth s List.mem_cons_self
    obtain ⟨path, feed⟩ := s
    cases feed with
    | none =>
      obtain ⟨hok, hleft⟩ := ih merged hrest
      refine ⟨hok, ?_⟩
      intro s hs
      rcases List.mem_cons.1 hs with rfl | hs
      · exact hfirst
      · exact hleft s hs
    | some f =>
      obtain ⟨⟨waiting, hresult⟩, hf⟩ :=
        (drain_draining codec .lenient w f merged).ok_of_smooth rfl (hfirst f rfl)
      rw [sweep_of_ok hresult]
      obtain ⟨hok, hleft⟩ := ih (drain codec .lenient w f merged).merged hrest
      refine ⟨hok, ?_⟩
      intro s hs
      rcases List.mem_cons.1 hs with rfl | hs
      · intro g hg
        injection hg with hg
        exact hg ▸ hf
      · exact hleft s hs

/-- A sound primary file has something due at each of its maxima. -/
theorem due_ne_nil_of_sound {m : Merge} {time : Int} (hsound : ∀ s ∈ m.sources, s.Sound codec)
    (htime : time ∈ strictMaxima m.times) : Record.unionAll (m.due codec time) ≠ [] := by
  unfold times primaryTimes at htime
  unfold due
  generalize m.sources = ss at hsound htime ⊢
  rcases ss with _ | ⟨⟨path, _ | f⟩, rest⟩
  · cases htime
  · cases htime
  · obtain ⟨p, hp, -, hdue⟩ := exists_dueAt_of_mem_strictMaxima htime
    obtain ⟨hrow, -⟩ := mem_inTime hp
    obtain ⟨r, hr, hne⟩ := (hsound _ List.mem_cons_self f rfl).decodes p.2 hrow
    have hmem : r ∈ f.due codec time :=
      List.mem_filterMap.2 ⟨p.2, hdue, by simp [hr, Except.toOption]⟩
    exact Record.unionAll_ne_nil (List.mem_append_left _ hmem) hne

/-! ## §3. The stream of smooth files. -/

/-- The watermark is the first time of the primary file that is left; if none
is left, nothing is due any more. -/
def Ready (codec : Codec) (m : Merge) : Prop :=
  match m.times with
  | t :: _ => m.phase = .connected (some t)
  | [] =>
    m.phase = .connected none ∨ m.phase = .ended ∨
      ∃ w, m.phase = .connected (some w) ∧ m.due codec w = []

/-- A step that finds nothing due ends the stream. -/
theorem next_of_smooth_nil {m : Merge} (hlenient : m.strictness = .lenient)
    (hsmooth : ∀ s ∈ m.sources, s.Smooth codec) (hphase : m.phase = .connected (some w))
    (hnil : Record.unionAll (m.due codec w) = []) :
    (m.next codec).result = .ok none ∧ (m.next codec).state.phase = .ended := by
  obtain ⟨hok, -⟩ := sweep_ok_of_smooth (w := w) [] hsmooth
  rcases next_cases codec hphase with ⟨e, hres, -, -⟩ | ⟨-, -, hres, hstate⟩ | ⟨-, hne, -, -⟩
  · rw [hlenient, hok] at hres
    cases hres
  · rw [hstate]
    exact ⟨hres, rfl⟩
  · rw [hlenient, merged_sweep_ok hok] at hne
    exact absurd hnil hne

/-- What becomes of the watermark and of the files in a step that finds something
due: they are ready past its time. -/
theorem next_of_smooth {m : Merge} {t : Int} {ts : List Int} (hlenient : m.strictness = .lenient)
    (hsmooth : ∀ s ∈ m.sources, s.Smooth codec) (hready : m.Ready codec)
    (htimes : m.times = t :: ts) (hne : Record.unionAll (m.due codec t) ≠ []) :
    (m.next codec).result = .ok (some (Record.unionAll (m.due codec t))) ∧
    (∀ s ∈ (m.next codec).state.sources, s.Smooth codec) ∧
    (m.next codec).state.Ready codec ∧
    (m.next codec).state.times = ts.dropWhile (fun x => decide (x ≤ t)) ∧
    ∀ time, t < time → (m.next codec).state.due codec time = m.due codec time := by
  have hphase : m.phase = .connected (some t) := by
    unfold Ready at hready
    rwa [htimes] at hready
  obtain ⟨hok, hleft⟩ := sweep_ok_of_smooth (w := t) [] hsmooth
  rcases next_cases codec hphase with ⟨e, hres, -, -⟩ | ⟨-, hnil, -, -⟩ | ⟨-, -, hres, hstate⟩
  · rw [hlenient, hok] at hres
    cases hres
  · rw [hlenient, merged_sweep_ok hok] at hnil
    exact absurd hnil hne
  · obtain ⟨hr, -, hpassed, hdue, hphase', hahead⟩ := next_some hphase hres
    have hdueEq : ∀ time, t < time → (m.next codec).state.due codec time = m.due codec time :=
      fun time ht => hpassed.due_of_lt ht
    -- What is gone of the primary file is all that is not past the watermark.
    have hrest : (m.next codec).state.times = ts.dropWhile (fun x => decide (x ≤ t)) := by
      have hpast : m.times.dropWhile (fun x => decide (x ≤ t)) =
          (m.next codec).state.times.dropWhile (fun x => decide (x ≤ t)) := hpassed.times_past
      rw [dropWhile_of_lt_head hahead, htimes, List.dropWhile_cons, if_pos (by simp)] at hpast
      exact hpast.symm
    refine ⟨by rw [hres, hr], ?_, ?_, hrest, hdueEq⟩
    · rw [hstate, hlenient]
      exact hleft
    · unfold Ready
      cases hts : (m.next codec).state.times with
      | nil =>
        rw [hts] at hphase'
        exact .inr (.inr ⟨t, hphase', hdue⟩)
      | cons x rest =>
        rw [hts] at hphase'
        exact hphase'

/-- The records of the strict maxima of the primary file's times, up to the
first with nothing in it. -/
def stream (codec : Codec) (m : Merge) : List Record :=
  ((strictMaxima m.times).map fun t => Record.unionAll (m.due codec t)).takeWhile (!·.isEmpty)

theorem stream_cons {m : Merge} {t : Int} {ts : List Int} (htimes : m.times = t :: ts) :
    m.stream codec =
      if Record.unionAll (m.due codec t) = [] then []
      else Record.unionAll (m.due codec t) ::
        ((strictMaxima (ts.dropWhile fun x => decide (x ≤ t))).map fun time =>
          Record.unionAll (m.due codec time)).takeWhile (!·.isEmpty) := by
  unfold stream
  rw [htimes, strictMaxima_cons, List.map_cons, List.takeWhile_cons]
  simp

/-- **A stream that goes on**: the step hands out its first record and leaves the
rest of it. -/
theorem next_of_stream {m : Merge} {r : Record} {rest : List Record}
    (hlenient : m.strictness = .lenient) (hsmooth : ∀ s ∈ m.sources, s.Smooth codec)
    (hready : m.Ready codec) (hstream : m.stream codec = r :: rest) :
    (m.next codec).result = .ok (some r) ∧
    (∀ s ∈ (m.next codec).state.sources, s.Smooth codec) ∧
    (m.next codec).state.Ready codec ∧ (m.next codec).state.stream codec = rest := by
  cases htimes : m.times with
  | nil =>
    rw [stream, htimes] at hstream
    cases hstream
  | cons t ts =>
    rw [stream_cons htimes] at hstream
    by_cases hnil : Record.unionAll (m.due codec t) = []
    · rw [if_pos hnil] at hstream
      cases hstream
    · rw [if_neg hnil] at hstream
      injection hstream with hr hrest
      obtain ⟨hresult, hsmooth', hready', htimes', hdue⟩ :=
        next_of_smooth hlenient hsmooth hready htimes hnil
      refine ⟨hr ▸ hresult, hsmooth', hready', ?_⟩
      rw [← hrest, stream, htimes']
      -- The records to come are past the watermark, where nothing has changed.
      congr 1
      apply List.map_congr_left
      intro time htime
      rw [← filter_lt_strictMaxima, List.mem_filter] at htime
      rw [hdue time (of_decide_eq_true htime.2)]

/-- **A stream that is over**: no call comes to anything. -/
theorem results_of_stream_nil {m : Merge} (hlenient : m.strictness = .lenient)
    (hsmooth : ∀ s ∈ m.sources, s.Smooth codec) (hready : m.Ready codec)
    (hstream : m.stream codec = []) (n : Nat) :
    ((m.after codec n).next codec).result = .ok none := by
  -- The first call finds nothing and ends the stream, if it has not ended.
  have hend : (m.next codec).result = .ok none ∧ (m.next codec).state.phase = .ended := by
    unfold Ready at hready
    cases htimes : m.times with
    | nil =>
      rw [htimes] at hready
      rcases hready with hphase | hphase | ⟨w, hphase, hdue⟩
      · simp only [next, hphase, finish]
        exact ⟨trivial, trivial⟩
      · rw [next_of_ended codec hphase]
        exact ⟨rfl, hphase⟩
      · exact next_of_smooth_nil hlenient hsmooth hphase (by rw [hdue]; rfl)
    | cons t ts =>
      rw [htimes] at hready
      rw [stream_cons htimes] at hstream
      by_cases hnil : Record.unionAll (m.due codec t) = []
      · exact next_of_smooth_nil hlenient hsmooth hready hnil
      · rw [if_neg hnil] at hstream
        cases hstream
  cases n with
  | zero => exact hend.1
  | succ n =>
    rw [after_succ, after_of_ended codec hend.2, next_of_ended codec hend.2]

/-- **The stream of smooth files**: the n-th call comes to the n-th of its
records, and to none past the last. -/
theorem results_of_smooth (n : Nat) : ∀ {m : Merge}, m.strictness = .lenient →
    (∀ s ∈ m.sources, s.Smooth codec) → m.Ready codec →
      ((m.after codec n).next codec).result = .ok ((m.stream codec)[n]?) := by
  induction n with
  | zero =>
    intro m hlenient hsmooth hready
    cases hstream : m.stream codec with
    | nil => exact results_of_stream_nil hlenient hsmooth hready hstream 0
    | cons r rest => exact (next_of_stream hlenient hsmooth hready hstream).1
  | succ n ih =>
    intro m hlenient hsmooth hready
    cases hstream : m.stream codec with
    | nil => exact results_of_stream_nil hlenient hsmooth hready hstream (n + 1)
    | cons r rest =>
      obtain ⟨-, hsmooth', hready', hrest⟩ := next_of_stream hlenient hsmooth hready hstream
      rw [after_succ, ih ((strictness_next codec m).trans hlenient) hsmooth' hready', hrest,
        List.getElem?_cons_succ]

/-- **The stream of sound files**: one record for each strict maximum of the
primary file's times, and nothing after them. -/
theorem results_of_sound (n : Nat) {m : Merge} (hlenient : m.strictness = .lenient)
    (hsound : ∀ s ∈ m.sources, s.Sound codec) (hready : m.Ready codec) :
    ((m.after codec n).next codec).result =
      .ok (((strictMaxima m.times).map fun t => Record.unionAll (m.due codec t))[n]?) := by
  have hwhole : m.stream codec =
      (strictMaxima m.times).map fun t => Record.unionAll (m.due codec t) := by
    refine List.takeWhile_eq_self_iff.2 ?_
    intro r hr
    obtain ⟨t, ht, rfl⟩ := List.mem_map.1 hr
    simpa using due_ne_nil_of_sound hsound ht
  rw [results_of_smooth n hlenient (fun s hs => (hsound s hs).smooth) hready, hwhole]

end Merge

end ReportStore

/-
  ReportStore.Proofs.Merge.Faults
  ───────────────────────────────
  **WHAT A STEP CAN FAIL WITH.**

  A step looks at rows and takes them, and it fails over the first thing that
  is in its way: a row without a time, a record that is no row, a row behind
  the watermark of a strict merge, or a row that the codec refuses.  A row is
  given to the codec only if its time was read, and the codecs of the library
  read the same time from the same cell, so they refuse none:

      next = error e   →   badTimestamp, malformedRow or, if strict, outOfOrder

  whatever is in the files.  For the same reason a record that is handed out
  is never empty: it carries at least the time of its rows.
-/
import ReportStore.Proofs.Merge.Ascending
import ReportStore.Proofs.Merge.Standstill
import ReportStore.Proofs.Merge.Strict

namespace ReportStore

/-! ## §1. What is in the way in one file. -/

namespace Feed

/-- Something in a file stops a step, whichever codec it is asked with. -/
inductive Stops (strictness : Strictness) (w : Int) (f : Feed) : Fault → Prop where
  /-- The time of a row cannot be read. -/
  | unreadable {row : Row} (mem : row ∈ f.rows) (time : row.time? = none) :
      Stops strictness w f (.badTimestamp f.path (timeCell row))
  /-- A record is no row. -/
  | malformed {cause : Csv.RowFault} (mem : .error cause ∈ f.rest) :
      Stops strictness w f (.malformedRow f.path cause)
  /-- A row is behind the watermark of a strict merge. -/
  | late {row : Row} {t : Int} (mem : row ∈ f.rows) (time : row.time? = some t) (behind : t < w)
      (strict : strictness = .strict) : Stops strictness w f (.outOfOrder f.path t w)

variable {strictness : Strictness} {w : Int} {f next : Feed} {e : Fault} {taken : Option Row}

theorem mem_rows_of_held {row : Row} (held : f.held = some row) : row ∈ f.rows := by
  unfold rows
  rw [held]
  exact List.mem_cons_self

/-- An advance leaves a part of the records that were to come. -/
theorem mem_rest_of_advance {r : Except Csv.RowFault Row} (h : f.advance = (.ok taken, next))
    (hr : r ∈ next.rest) : r ∈ f.rest := by
  unfold advance at h
  cases hrest : f.rest with
  | nil =>
    simp only [hrest, Prod.mk.injEq] at h
    obtain ⟨-, rfl⟩ := h
    exact hr
  | cons first rest =>
    cases first with
    | error cause => simp only [hrest, Prod.mk.injEq, reduceCtorEq, false_and] at h
    | ok row =>
      simp only [hrest, Prod.mk.injEq] at h
      obtain ⟨-, rfl⟩ := h
      exact List.mem_cons_of_mem _ hr

/-- An advance that fails met a record that is no row. -/
theorem stops_of_advance_error (h : f.advance = (.error e, next)) : f.Stops strictness w e := by
  unfold advance at h
  cases hrest : f.rest with
  | nil => simp only [hrest, Prod.mk.injEq, reduceCtorEq, false_and] at h
  | cons first rest =>
    cases first with
    | ok row => simp only [hrest, Prod.mk.injEq, reduceCtorEq, false_and] at h
    | error cause =>
      simp only [hrest, Prod.mk.injEq, Except.error.injEq] at h
      obtain ⟨rfl, -⟩ := h
      exact .malformed (hrest ▸ List.mem_cons_self)

/-- What is in the way after an advance was in the way before it. -/
theorem Stops.of_advance {row : Row} (held : f.held = some row)
    (hadvance : f.advance = (.ok taken, next)) (h : next.Stops strictness w e) :
    f.Stops strictness w e := by
  obtain ⟨hrows, hpath, -, -⟩ := rows_of_advance_ok held hadvance
  have hmem : ∀ {row'}, row' ∈ next.rows → row' ∈ f.rows :=
    fun hrow => hrows ▸ List.mem_cons_of_mem _ hrow
  cases h with
  | unreadable mem time =>
    rw [hpath]
    exact .unreadable (hmem mem) time
  | malformed mem =>
    rw [hpath]
    exact .malformed (mem_rest_of_advance hadvance mem)
  | late mem time behind strict =>
    rw [hpath]
    exact .late (hmem mem) time behind strict

/-- What the codec refuses after an advance was to come before it. -/
theorem Refused.of_advance {codec : Codec} {row : Row} (held : f.held = some row)
    (hadvance : f.advance = (.ok taken, next)) (h : next.Refused codec w e) :
    f.Refused codec w e := by
  obtain ⟨hrows, -, hname, -⟩ := rows_of_advance_ok held hadvance
  obtain ⟨row', hrow, htime, hrefused⟩ := h
  exact ⟨row', hrows ▸ List.mem_cons_of_mem _ hrow, htime, hname ▸ hrefused⟩

end Feed

theorem Codec.stamps {codec : Codec} (h : codec ∈ [Codec.power, Codec.counters]) :
    codec.Stamps := by
  simp only [List.mem_cons, List.not_mem_nil, or_false] at h
  rcases h with rfl | rfl
  · exact Codec.stamps_power
  · exact Codec.stamps_counters

namespace Merge

variable {codec : Codec} {strictness : Strictness} {w : Int} {m : Merge} {e : Fault}

/-! ## §2. What is in the way of a step. -/

/-- **A pass that fails** has something in its way in the file. -/
theorem Draining.stops {f : Feed} {merged : Record} {d : Drained}
    (h : Draining codec strictness w f merged d) (herror : d.result = .error e) :
    f.Refused codec w e ∨ f.Stops strictness w e := by
  induction h with
  | exhausted | waiting => cases herror
  | unreadable held time =>
    cases herror
    exact .inr (.unreadable (Feed.mem_rows_of_held held) time)
  | late held time behind strict =>
    cases herror
    exact .inr (.late (Feed.mem_rows_of_held held) time behind strict)
  | malformed held time reached advance =>
    cases herror
    exact .inr (Feed.stops_of_advance_error advance)
  | @refused f next _ row _ _ held time advance decoded =>
    cases herror
    exact .inl ⟨row, Feed.mem_rows_of_held held, time, decoded⟩
  | skipped held _ _ _ advance _ ih | united held _ advance _ _ ih =>
    exact (ih herror).imp (Feed.Refused.of_advance held advance)
      (Feed.Stops.of_advance held advance)

/-- **A sweep that fails** has something in its way in one of the files. -/
theorem exists_stops_of_sweep : ∀ {ss : List Source} {merged : Record},
    (sweep codec strictness w ss merged).result = .error e →
      ∃ s ∈ ss, ∃ f ∈ s.feed, f.Refused codec w e ∨ f.Stops strictness w e := by
  intro ss
  induction ss with
  | nil => exact fun h => nomatch h
  | cons s rest ih =>
    intro merged herror
    obtain ⟨path, feed⟩ := s
    cases feed with
    | none =>
      obtain ⟨s, hs, hstops⟩ := ih herror
      exact ⟨s, List.mem_cons_of_mem _ hs, hstops⟩
    | some f =>
      have hdrain := drain_draining codec strictness w f merged
      cases hresult : (drain codec strictness w f merged).result with
      | error e' =>
        rw [sweep_of_error hresult] at herror
        cases herror
        exact ⟨_, List.mem_cons_self, f, rfl, hdrain.stops hresult⟩
      | ok waiting =>
        rw [sweep_of_ok hresult] at herror
        obtain ⟨s, hs, hstops⟩ := ih herror
        exact ⟨s, List.mem_cons_of_mem _ hs, hstops⟩

/-- A step that comes to anything but the end has a watermark. -/
theorem watermark_of_result {result : Except Fault (Option Record)}
    (h : (m.next codec).result = result) (hend : result ≠ .ok none) :
    ∃ w, m.phase = .connected (some w) ∧ m.watermark = some w := by
  obtain ⟨w, hphase⟩ := phase_of_result (h.symm ▸ hend)
  exact ⟨w, hphase, by simp only [watermark, hphase]⟩

/-- **A step that fails**, with any codec: the codec refuses a row, or something
in a file is in the way. -/
theorem stops_of_next (hfail : (m.next codec).result = .error e) :
    m.Refuses codec e ∨ ∃ w, m.watermark = some w ∧
      ∃ s ∈ m.sources, ∃ f ∈ s.feed, f.Stops m.strictness w e := by
  obtain ⟨w, hphase, hwatermark⟩ := watermark_of_result hfail (by simp)
  rcases next_cases codec hphase with
    ⟨e', hswept, hres, -⟩ | ⟨-, -, hres, -⟩ | ⟨-, -, hres, -⟩
  · rw [hfail] at hres
    cases hres
    obtain ⟨s, hs, f, hf, hrefused | hstops⟩ := exists_stops_of_sweep hswept
    · exact .inl ⟨w, hwatermark, s, hs, f, hf, hrefused⟩
    · exact .inr ⟨w, hwatermark, s, hs, f, hf, hstops⟩
  · rw [hfail] at hres
    cases hres
  · rw [hfail] at hres
    cases hres

/-! ## §3. Every step, of a merge of any files. -/

/-- Every request leaves the open files under the paths they were registered by. -/
theorem named_ask (h : Named m.sources) (q : Request) : Named (m.ask q).sources := by
  cases q with
  | add path =>
    intro s hs f hf
    rcases List.mem_append.1 hs with hs | hs
    · exact h s hs f hf
    · rw [List.mem_singleton.1 hs] at hf
      cases hf
  | clear => exact List.forall_mem_nil _
  | connect t => exact named_connect t m
  | disconnect =>
    intro s hs f hf
    obtain ⟨source, -, rfl⟩ := List.mem_map.1 hs
    cases hf
  | next codec => exact named_next codec h

/-- **A step fails over a file, never over its codec.**  Whatever files a merge
reads and whatever was asked of it before, with a codec of the library a step
fails only over a row without a time, a record that is no row or, if the merge
is strict, a row behind the watermark, and it names the registered file that has
it.  A record that it hands out carries the time of the watermark. -/
theorem next_faults (strictness : Strictness) (qs : List Request)
    (hcodec : codec ∈ [Codec.power, Codec.counters])
    (hasked : (m, .next codec) ∈ (Merge.new strictness).trace qs) :
    (∀ e, (m.next codec).result = .error e → ∃ w, m.watermark = some w ∧
      ∃ s ∈ m.sources, ∃ f ∈ s.feed, f.path = s.path ∧ f.Stops strictness w e) ∧
    ∀ r, (m.next codec).result = .ok (some r) →
      r ≠ [] ∧ ∃ w, m.watermark = some w ∧ r.Stamped w := by
  -- Every request keeps the paths of the open files, and whether the merge is strict.
  have hnew : Named (Merge.new strictness).sources ∧
      (Merge.new strictness).strictness = strictness := ⟨List.forall_mem_nil _, rfl⟩
  have hkept : Named m.sources ∧ m.strictness = strictness :=
    trace_induction (P := fun m => Named m.sources ∧ m.strictness = strictness)
      (fun m q _ h => ⟨named_ask h.1 q, (strictness_ask m q).trans h.2⟩) hnew m _ hasked
  constructor
  · intro e hfail
    rcases stops_of_next hfail with hrefuses | ⟨w, hw, s, hs, f, hf, hstops⟩
    · exact absurd hrefuses (not_refuses hcodec)
    · exact ⟨w, hw, s, hs, f, hf, hkept.1 s hs f hf, hkept.2 ▸ hstops⟩
  · intro r hresult
    obtain ⟨w, hphase, hwatermark⟩ := watermark_of_result hresult (by simp)
    obtain ⟨-, hne, -⟩ := next_some hphase hresult
    exact ⟨hne, w, hwatermark, stamped_of_next (Codec.stamps hcodec) hphase hresult⟩

/-- A file with two columns for the time, of which the later one counts.  In the
third row it is no time. -/
def twoTimes : FileTree :=
  ⟨[(["P.csv"], .file (Text.encode
      "timestamp,timestamp,sensor,target,socket,cpu\nx,1,s,t,0,0\nx,2,s,t,0,0\n3,soon,s,t,0,0\n"))]⟩

/-- The first step hands out the first row, and the second one takes the second
row and fails over the third. -/
theorem next_faults_twoTimes :
    let first := (new .strict).askAll [.add "P.csv", .connect twoTimes]
    let second := (first.next Codec.power).state
    let r : Record := [("cpu", .text "0"), ("sensor", .text "s"), ("socket", .text "0"),
      ("target", .text "t"), ("timestamp", .int 1)]
    (first.next Codec.power).result = .ok (some r) ∧
      (∃ w, first.watermark = some w ∧ r.Stamped w) ∧
      (second.next Codec.counters).result = .error (.badTimestamp "P.csv" "soon") ∧
      ∃ w, second.watermark = some w ∧ ∃ s ∈ second.sources, ∃ f ∈ s.feed, f.path = s.path ∧
        f.Stops .strict w (.badTimestamp "P.csv" "soon") := by
  intro first second r
  let qs : List Request :=
    [.add "P.csv", .connect twoTimes, .next Codec.power, .next Codec.counters]
  have hfirst : (first, .next Codec.power) ∈ (new .strict).trace qs :=
    List.mem_cons_of_mem _ (List.mem_cons_of_mem _ List.mem_cons_self)
  have hsecond : (second, .next Codec.counters) ∈ (new .strict).trace qs :=
    List.mem_cons_of_mem _ (List.mem_cons_of_mem _ (List.mem_cons_of_mem _ List.mem_cons_self))
  have hrecord : (first.next Codec.power).result = .ok (some r) :=
    eq_ok_of_toOption (by decide +kernel)
  have hfail : (second.next Codec.counters).result = .error (.badTimestamp "P.csv" "soon") :=
    eq_error_of_match (by decide +kernel)
  exact ⟨hrecord, ((next_faults .strict qs List.mem_cons_self hfirst).2 r hrecord).2, hfail,
    (next_faults .strict qs (List.mem_cons_of_mem _ List.mem_cons_self) hsecond).1 _ hfail⟩

end Merge

end ReportStore

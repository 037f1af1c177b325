/-
  ReportStore.Proofs.Reports
  ──────────────────────────
  **WHAT A STORE REPORTS ARE EVENTS, EACH WITH ITS COUNTER.**

  A counter and the entry that tells of it are signalled together, whatever
  branch an operation takes and however it ends.  So the signals of every
  operation are those of some events, in order, and of rows that are counted
  without an event:

      signals of e :: es  =  counter of e ++ entry of e ++ signals of es

  The lines of the journal are then these events, one for one, and a counter
  is the number of the events that it goes with.
-/
import ReportStore.Proofs.Journal
import ReportStore.Proofs.Merge.Accounting
import ReportStore.Proofs.Saving.Tallies

namespace ReportStore

/-! ## §1. Events and their counters. -/

/-- The counter that goes up with an event. -/
def Event.counter : Event → Option Counter
  | recordMerged => some .recordsMerged
  | rowSkipped => some .rowsSkipped
  | headerWritten => some .headersWritten
  | headerMismatch | saveFailed => some .saveFailures
  | settingsRead | fileOpened | connected | connectFailed | streamEnded | recordSaved => none

/-- **Some signals report some events**, each with its counter. -/
inductive Reported : List Signal → List Event → Prop where
  | nil : Reported [] []
  /-- An event, its counter first. -/
  | event (e : Event) (fields : List (String × String)) {signals : List Signal}
      {events : List Event} (rest : Reported signals events) :
      Reported ((e.counter.map Signal.count).toList ++ e.signal fields :: signals) (e :: events)
  /-- No event tells of a row that is read. -/
  | rowRead {signals : List Signal} {events : List Event} (rest : Reported signals events) :
      Reported (.count .rowsRead :: signals) events
  /-- Nor of one that is written. -/
  | rowWritten {signals : List Signal} {events : List Event} (rest : Reported signals events) :
      Reported (.count .rowsWritten :: signals) events

namespace Reported

variable {signals signals' : List Signal} {events events' : List Event}

theorem append (h : Reported signals events) (h' : Reported signals' events') :
    Reported (signals ++ signals') (events ++ events') := by
  induction h with
  | nil => exact h'
  | event e fields _ ih =>
    rw [List.append_assoc]
    exact .event e fields ih
  | rowRead _ ih => exact .rowRead ih
  | rowWritten _ ih => exact .rowWritten ih

/-- One event that counts nothing. -/
theorem uncounted {e : Event} (fields : List (String × String)) (h : e.counter = none) :
    Reported [e.signal fields] [e] := by
  have hone := Reported.event e fields .nil
  rwa [h] at hone

/-- **The entries are those of the events**, one for one. -/
theorem exists_fields (h : Reported signals events) :
    ∃ told : List (Event × List (String × String)), told.map (·.1) = events ∧
      entries signals = told.map fun p => p.1.entry p.2 := by
  induction h with
  | nil => exact ⟨[], rfl, rfl⟩
  | event e fields _ ih =>
    obtain ⟨told, hevents, hentries⟩ := ih
    refine ⟨(e, fields) :: told, congrArg (e :: ·) hevents, ?_⟩
    rw [entries_append]
    -- A counter is no entry.
    have hcounter : entries (e.counter.map Signal.count).toList = [] := by
      cases e.counter <;> rfl
    rw [hcounter, List.nil_append]
    exact congrArg (e.entry fields :: ·) hentries
  | rowRead _ ih => exact ih
  | rowWritten _ ih => exact ih

theorem known (h : Reported signals events) : Known signals := by
  obtain ⟨told, -, hentries⟩ := h.exists_fields
  intro entry hentry
  rw [hentries] at hentry
  obtain ⟨p, -, rfl⟩ := List.mem_map.1 hentry
  exact ⟨p.1, p.2, rfl⟩

/-- **The lines name the events**, one for one. -/
theorem map_lineEvent (h : Reported signals events) :
    (journalLines .trace signals).map lineEvent = events.map fun e => some e.name := by
  obtain ⟨told, rfl, hentries⟩ := h.exists_fields
  rw [journalLines_trace, hentries, List.map_map, List.map_map, List.map_map]
  refine List.map_congr_left fun p _ => ?_
  simp only [Function.comp_apply, lineEvent_line]

/-- **A counter is the number of the events that it goes with**, unless it is
one that rows are counted in. -/
theorem count_eq (h : Reported signals events) {c : Counter} (hread : c ≠ .rowsRead)
    (hwritten : c ≠ .rowsWritten) :
    signals.count (.count c) = events.countP fun e => e.counter = some c := by
  induction h with
  | nil => rfl
  | event e fields _ ih =>
    have hentry : (e.signal fields :: ‹List Signal›).count (.count c) =
        (‹List Signal› : List Signal).count (.count c) := by
      rw [List.count_cons]
      rfl
    rw [List.count_append, hentry, ih, List.countP_cons]
    cases hc : e.counter with
    | none => simp
    | some c' => by_cases hcc : c' = c <;> simp [hcc, Nat.add_comm]
  | rowRead _ ih =>
    rw [List.count_cons, ih]
    simp [Ne.symm hread]
  | rowWritten _ ih =>
    rw [List.count_cons, ih]
    simp [Ne.symm hwritten]

end Reported

/-! ## §2. Streams that begin and end. -/

/-- Whether a stream is open after some events; none if one has ended twice. -/
def streamAfter (live : Bool) : List Event → Option Bool
  | [] => some live
  | e :: rest =>
    if e = .connected then streamAfter true rest
    else if e = .streamEnded then if live then streamAfter false rest else none
    else streamAfter live rest

/-- Events one after the other. -/
theorem streamAfter_append (live : Bool) (events events' : List Event) :
    streamAfter live (events ++ events') =
      (streamAfter live events).bind fun live' => streamAfter live' events' := by
  induction events generalizing live with
  | nil => rfl
  | cons e rest ih =>
    rw [List.cons_append, streamAfter, streamAfter, ih, ih, ih]
    split
    · rfl
    · split
      · split <;> rfl
      · rfl

theorem streamAfter_of_apart {events : List Event}
    (h : ∀ e ∈ events, e ≠ .connected ∧ e ≠ .streamEnded) (live : Bool) :
    streamAfter live events = some live := by
  induction events with
  | nil => rfl
  | cons e rest ih =>
    obtain ⟨⟨hconnected, hended⟩, hrest⟩ := List.forall_mem_cons.1 h
    rw [streamAfter, if_neg hconnected, if_neg hended]
    exact ih hrest

/-- Events that begin and end no stream, and are no save. -/
def Quiet (events : List Event) : Prop :=
  ∀ e ∈ events, e ≠ .connected ∧ e ≠ .streamEnded ∧ e ≠ .recordSaved

theorem Quiet.append {a b : List Event} (ha : Quiet a) (hb : Quiet b) : Quiet (a ++ b) :=
  List.forall_mem_append.2 ⟨ha, hb⟩

theorem Quiet.streamAfter {events : List Event} (h : Quiet events) (live : Bool) :
    streamAfter live events = some live :=
  streamAfter_of_apart (fun e he => ⟨(h e he).1, (h e he).2.1⟩) live

theorem Quiet.count_recordSaved {events : List Event} (h : Quiet events) :
    events.count .recordSaved = 0 :=
  List.count_eq_zero.2 fun hmem => (h _ hmem).2.2 rfl

/-- A stretch of events with no connection in it. -/
theorem count_ended_of_streamAfter {events : List Event} (hnot : Event.connected ∉ events) :
    ∀ {live live' : Bool}, streamAfter live events = some live' →
      events.count .streamEnded + live'.toNat ≤ live.toNat := by
  induction events with
  | nil =>
    intro live live' h
    injection h with h
    exact h ▸ Nat.le_of_eq (Nat.zero_add _)
  | cons e rest ih =>
    intro live live' h
    obtain ⟨hne, hrest⟩ := not_or.1 (mt List.mem_cons.2 hnot)
    rw [streamAfter, if_neg (Ne.symm hne)] at h
    rw [List.count_cons]
    by_cases hended : e = .streamEnded
    · rw [if_pos hended] at h
      cases live with
      | false => cases h
      | true =>
        have hlater := ih hrest h
        simp only [hended, beq_self_eq_true, if_true, Bool.toNat_false, Bool.toNat_true] at hlater ⊢
        omega
    · rw [if_neg hended] at h
      have hlater := ih hrest h
      simpa [hended] using hlater

/-! ## §3. What an operation reports. -/

/-- Whether a stream is open. -/
def Merge.Running (m : Merge) : Prop := ∃ w, m.phase = .connected w

/-- **What is told on the way from a merge to another**: events with their
counters, some of them of saves, and of streams none that ends twice. -/
structure Told (m m' : Merge) (saved : Nat) (signals : List Signal) (events : List Event) :
    Prop where
  reported : Reported signals events
  saved : events.count .recordSaved = saved
  stream : ∀ live, (m.Running → live = true) →
    ∃ live', streamAfter live events = some live' ∧ (m'.Running → live' = true)

namespace Told

variable {m m' m'' : Merge} {saved saved' : Nat} {signals signals' : List Signal}
  {events events' : List Event}

theorem trans (h : Told m m' saved signals events) (h' : Told m' m'' saved' signals' events') :
    Told m m'' (saved + saved') (signals ++ signals') (events ++ events') := by
  refine ⟨h.reported.append h'.reported, ?_, ?_⟩
  · rw [List.count_append, h.saved, h'.saved]
  · intro live hlive
    obtain ⟨live', hafter, hlive'⟩ := h.stream live hlive
    obtain ⟨live'', hafter', hlive''⟩ := h'.stream live' hlive'
    exact ⟨live'', by rw [streamAfter_append, hafter, Option.bind_some, hafter'], hlive''⟩

/-- Where no stream begins or ends. -/
theorem of_quiet (hreported : Reported signals events) (hquiet : Quiet events)
    (hrunning : m'.Running → m.Running) : Told m m' 0 signals events :=
  ⟨hreported, hquiet.count_recordSaved,
    fun live hlive => ⟨live, hquiet.streamAfter live, fun h => hlive (hrunning h)⟩⟩

theorem refl (m : Merge) : Told m m 0 [] [] := of_quiet .nil (List.forall_mem_nil _) id

end Told

/-! ## §4. Reading. -/

namespace Merge

variable {codec : Codec} {strictness : Strictness} {w : Int}

/-- A pass tells of the rows that it skips. -/
theorem Draining.reported {f : Feed} {merged : Record} {d : Drained}
    (h : Draining codec strictness w f merged d) :
    ∃ events, Reported d.signals events ∧ Quiet events := by
  induction h with
  | exhausted | unreadable | waiting | late | malformed | refused =>
    exact ⟨[], .nil, List.forall_mem_nil _⟩
  | skipped _ _ _ _ _ _ ih =>
    obtain ⟨events, hreported, hquiet⟩ := ih
    exact ⟨.rowSkipped :: events, .event .rowSkipped _ hreported,
      List.forall_mem_cons.2 ⟨by decide, hquiet⟩⟩
  | united _ _ _ _ _ ih =>
    obtain ⟨events, hreported, hquiet⟩ := ih
    exact ⟨events, .rowRead hreported, hquiet⟩

theorem sweep_reported : ∀ (ss : List Source) (merged : Record), ∃ events,
    Reported (sweep codec strictness w ss merged).signals events ∧ Quiet events := by
  intro ss
  induction ss with
  | nil => exact fun _ => ⟨[], .nil, List.forall_mem_nil _⟩
  | cons s rest ih =>
    intro merged
    obtain ⟨path, feed⟩ := s
    cases feed with
    | none => exact ih merged
    | some f =>
      obtain ⟨first, hfirst, hquiet⟩ := (drain_draining codec strictness w f merged).reported
      cases hresult : (drain codec strictness w f merged).result with
      | error e =>
        rw [sweep_of_error hresult]
        exact ⟨first, hfirst, hquiet⟩
      | ok waiting =>
        rw [sweep_of_ok hresult]
        obtain ⟨later, hlater, hquiet'⟩ := ih (drain codec strictness w f merged).merged
        exact ⟨first ++ later, hfirst.append hlater, hquiet.append hquiet'⟩

/-- The end of a stream is told once: it is open before and not after. -/
theorem told_finish {m left : Merge} (hphase : m.Running) {signals : List Signal}
    {events : List Event} (hreported : Reported signals events) (hquiet : Quiet events) :
    Told m (left.finish signals).state 0 (left.finish signals).signals
      (events ++ [.streamEnded]) := by
  refine ⟨hreported.append (.uncounted _ rfl), ?_, ?_⟩
  · rw [List.count_append, hquiet.count_recordSaved]
    rfl
  · intro live hlive
    refine ⟨false, ?_, fun ⟨_, h⟩ => nomatch h⟩
    rw [streamAfter_append, hquiet.streamAfter, hlive hphase]
    rfl

/-- **What a step tells.** -/
theorem next_told (codec : Codec) (m : Merge) :
    ∃ events, Told m (m.next codec).state 0 (m.next codec).signals events := by
  cases hphase : m.phase with
  | unconnected | ended =>
    simp only [next, hphase]
    exact ⟨[], .refl m⟩
  | connected watermark =>
    have hrunning : m.Running := ⟨watermark, hphase⟩
    cases watermark with
    | none =>
      simp only [next, hphase]
      exact ⟨_, told_finish hrunning .nil (List.forall_mem_nil _)⟩
    | some w =>
      obtain ⟨events, hreported, hquiet⟩ : ∃ events,
          Reported (sweep codec m.strictness w m.sources []).signals events ∧ Quiet events :=
        sweep_reported m.sources []
      simp only [next, hphase]
      generalize sweep codec m.strictness w m.sources [] = swept at hreported ⊢
      cases swept.result with
      | error e => exact ⟨events, .of_quiet hreported hquiet fun _ => hrunning⟩
      | ok u =>
        cases swept.merged.isEmpty with
        | true => exact ⟨_, told_finish hrunning hreported hquiet⟩
        | false =>
          refine ⟨events ++ [.recordMerged], .of_quiet (hreported.append ?_)
            (hquiet.append (List.forall_mem_singleton.2 (by decide))) fun _ => hrunning⟩
          exact .event .recordMerged _ .nil

/-- Opening files tells of each. -/
theorem openAll_reported (t : FileTree) (paths : List String) :
    ∃ events, Reported (openAll t paths).signals events ∧ Quiet events := by
  induction paths with
  | nil => exact ⟨[], .nil, List.forall_mem_nil _⟩
  | cons path rest ih =>
    unfold openAll
    cases openSource t path with
    | error e => exact ⟨[], .nil, List.forall_mem_nil _⟩
    | ok f =>
      obtain ⟨events, hreported, hquiet⟩ := ih
      exact ⟨.fileOpened :: events, .event .fileOpened _ hreported,
        List.forall_mem_cons.2 ⟨by decide, hquiet⟩⟩

/-- **What connecting tells**: a stream begins only if it succeeds. -/
theorem connect_told (t : FileTree) (m : Merge) :
    ∃ events, Told m (m.connect t).state 0 (m.connect t).signals events := by
  obtain ⟨events, hreported, hquiet⟩ := openAll_reported t m.paths
  have hfailed : ∀ fields, ∃ events', Told m m.disconnect 0
      ((openAll t m.paths).signals ++ [Event.connectFailed.signal fields]) events' := by
    intro fields
    refine ⟨events ++ [.connectFailed], .of_quiet (hreported.append (.uncounted _ rfl))
      (hquiet.append (List.forall_mem_singleton.2 (by decide))) ?_⟩
    rintro ⟨w, hw⟩
    cases hw
  unfold connect
  simp only
  cases (openAll t m.paths).result with
  | error e => exact hfailed _
  | ok u =>
    cases firstWatermark (openAll t m.paths).state with
    | error e => exact hfailed _
    | ok w =>
      refine ⟨events ++ [.connected], hreported.append (.uncounted _ rfl), ?_, ?_⟩
      · rw [List.count_append, hquiet.count_recordSaved]
        rfl
      · intro live _
        refine ⟨true, ?_, fun _ => rfl⟩
        rw [streamAfter_append, hquiet.streamAfter]
        rfl

end Merge

/-! ## §5. Saving. -/

/-- Appending tells of the headers. -/
theorem Append.performAll_reported : ∀ (appends : List Append) (t : FileTree),
    ∃ events, Reported (performAll t appends).signals events ∧ Quiet events := by
  intro appends
  induction appends with
  | nil => exact fun _ => ⟨[], .nil, List.forall_mem_nil _⟩
  | cons a rest ih =>
    intro t
    unfold performAll
    cases t.append a.path a.bytes with
    | error e => exact ⟨[], .nil, List.forall_mem_nil _⟩
    | ok t' =>
      obtain ⟨events, hreported, hquiet⟩ := ih t'
      show ∃ events, Reported (a.signals ++ _) events ∧ _
      unfold Append.signals
      cases a.startsFile with
      | false => exact ⟨events, .rowWritten hreported, hquiet⟩
      | true =>
        exact ⟨.headerWritten :: events, .event .headerWritten _ (.rowWritten hreported),
          List.forall_mem_cons.2 ⟨by decide, hquiet⟩⟩

theorem failure_reported (e : Fault) :
    ∃ events, Reported (failureSignals e) events ∧ Quiet events := by
  have hfailed : ∀ (event : Event) (fields : List (String × String)),
      event.counter = some .saveFailures →
        Reported [.count .saveFailures, event.signal fields] [event] := by
    intro event fields hcounter
    have hone := Reported.event event fields .nil
    rwa [hcounter] at hone
  unfold failureSignals
  cases e with
  | headerMismatch =>
    exact ⟨[.headerMismatch], hfailed _ _ rfl, List.forall_mem_singleton.2 (by decide)⟩
  | _ => exact ⟨[.saveFailed], hfailed _ _ rfl, List.forall_mem_singleton.2 (by decide)⟩

/-- The event of a save that succeeds. -/
def savedEvents : Except Fault Unit → List Event
  | .ok () => [.recordSaved]
  | .error _ => []

/-- A save has no part in what is read. -/
theorem Told.of_save (m : Merge) {result : Except Fault Unit} {signals : List Signal}
    {quiet : List Event} (hquiet : Quiet quiet)
    (hreported : Reported signals (quiet ++ savedEvents result)) :
    Told m m (savedEvents result).length signals (quiet ++ savedEvents result) := by
  refine ⟨hreported, ?_, fun live hlive => ⟨live, ?_, hlive⟩⟩
  · rw [List.count_append, hquiet.count_recordSaved]
    cases result <;> rfl
  · rw [streamAfter_append, hquiet.streamAfter]
    cases result <;> rfl

/-- Performing a plan tells of the headers, and of the save if it succeeds. -/
theorem Plan.commit_reported (codec : Codec) (t : FileTree) (p : Plan) :
    ∃ quiet, Quiet quiet ∧ Reported (p.commit codec t).signals
      (quiet ++ savedEvents (p.commit codec t).result) := by
  unfold commit
  rcases t.makeDirectories p.directory with ⟨t', made⟩
  cases made with
  | error e => exact ⟨[], List.forall_mem_nil _, .nil⟩
  | ok u =>
    obtain ⟨headers, hheaders, hquiet⟩ := Append.performAll_reported p.appends t'
    refine ⟨headers, hquiet, ?_⟩
    simp only
    generalize Append.performAll t' p.appends = done at hheaders ⊢
    obtain ⟨result, state, signals⟩ := done
    cases result with
    | error e => exact (List.append_nil headers).symm ▸ hheaders
    | ok u => exact hheaders.append (.uncounted _ rfl)

/-- **What a save tells**: of the record if it succeeds, of one failure if not. -/
theorem saveBelow_reported (base : String) (codec : Codec) (t : FileTree) (r : Record) :
    ∃ quiet, Quiet quiet ∧ Reported (saveBelow base codec t r).signals
      (quiet ++ savedEvents (saveBelow base codec t r).result) := by
  unfold saveBelow
  cases Plan.ofRecord t base codec r with
  | error e =>
    obtain ⟨events, hreported, hquiet⟩ := failure_reported e
    exact ⟨events, hquiet, (List.append_nil events).symm ▸ hreported⟩
  | ok plan =>
    obtain ⟨headers, hquiet, hheaders⟩ := plan.commit_reported codec t
    simp only
    generalize plan.commit codec t = done at hheaders ⊢
    obtain ⟨result, state, signals⟩ := done
    cases result with
    | error e =>
      obtain ⟨events, hreported, hquiet'⟩ := failure_reported e
      have hheaders' : Reported signals headers := List.append_nil headers ▸ hheaders
      exact ⟨headers ++ events, hquiet.append hquiet',
        (List.append_nil (headers ++ events)).symm ▸ hheaders'.append hreported⟩
    | ok u => exact ⟨headers, hquiet, hheaders⟩

end ReportStore
